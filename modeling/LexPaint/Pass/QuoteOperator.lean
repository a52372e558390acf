import LexPaint.Pass.Basic
/-!
# Mapping quote operators

Quote operators are looked for word by word. A candidate is an operator of the language that stands
as a word and is followed by a delimiter.

## Main definitions

* `Frame.operatorStep`: the candidate at an offset.
* `Pass.mapOperators`: mapping and painting the quote operators of a scope.
-/

namespace LexPaint

namespace Frame

/-- The operator that starts at an offset, with the offset of its first delimiter. -/
def operatorCandidate (f : Frame) (r : QuoteOperatorRules) (pos : Nat) : Option (Mark × Nat) := do
  if !f.text.byteIs QuoteOperatorRules.isLetter pos then
    none
  if f.lo < pos && f.text.byteIs QuoteOperatorRules.isWordByte (pos - 1) then
    none
  let operator ← r.operatorAt f.text pos f.hi
  let delimiter ← QuoteOperatorRules.delimiterAt f.text (pos + operator.length) f.hi
  some (operator, delimiter)

/-- Whether the operator at an offset opens no literal. -/
def refusesOperator (f : Frame) (l : Layout) (pos : Nat) : Checked Bool := do
  if (l.composite.heredocs.inString pos).isSome then
    return true
  if ← f.behindLineComment pos then
    return true
  return !(← f.accepts pos .quoteOperator)

/-- Looks at one offset, and maps the literal of the operator that starts there. -/
def operatorStep (f : Frame) (l : Layout) (r : QuoteOperatorRules) (pos : Nat) (_ : Unit) :
    Checked (Sweep.Move Unit Interval) := do
  if f.hi ≤ pos then
    return .stop
  f.text.checkBytes pos f.hi
  match f.operatorCandidate r pos with
  | none => return .go .nothing (pos + 1) ()
  | some (operator, delimiter) =>
    let behind := pos + operator.length
    if ← f.refusesOperator l pos then
      return .go .refused behind ()
    let stop ← r.operatorEnd f.text operator delimiter f.hi
    return .go (.accepted ⟨pos, stop, .quoteOperator⟩) (max stop behind) ()

end Frame

namespace Pass

/-- Maps and paints the quote operators of a scope, if its language has any. -/
def mapOperators (s : Scene) (f : Frame) (p : Pass) : Checked Pass := do
  match f.dialect.operators with
  | none => return p
  | some rules =>
    let harvest ← Sweep.collect (f.operatorStep p.layout rules) f.hi f.lo ()
    let operators := p.layout.composite.operators.addAll harvest.items
    let (composite, changed) ←
      { p.layout.composite with operators }.operatorChange harvest.tested
    let p := { p with
      canvas := s.paintAll p.canvas harvest.items .string
      layout := { p.layout with composite } }
    return p.repairIf s f changed .operatorEntries

end Pass

end LexPaint
