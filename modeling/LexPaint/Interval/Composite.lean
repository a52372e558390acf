import LexPaint.Interval.Set
/-!
# Heredocs and quote operators together

Heredocs and quote operators are the two literals whose delimiters are chosen by their opener, and
each can hide the other. One query tells whether an offset lies in either. Their extent cannot be
derived from a single closing mark, so change detection also compares the length of every entry
with the last committed pass.

## Main definitions

* `CompositeSet`: the two interval sets.
* `CompositeSet.inEither`: the containment query, with the rule for literals inside each other.
* `CompositeSet.entriesChanged`: the comparison entry by entry.
-/

namespace LexPaint

/-- The heredocs and the quote operators of one scope. -/
@[ext]
structure CompositeSet where
  /-- Openers and bodies of heredocs. -/
  heredocs : IntervalSet
  /-- Quote operators with all their parts. -/
  operators : IntervalSet
deriving DecidableEq, Repr, Inhabited

namespace CompositeSet

/-- No literals and no history. -/
def empty : CompositeSet :=
  ⟨.empty, .empty⟩

/-- Applies a change to both sets. -/
def mapSets (f : IntervalSet → IntervalSet) (s : CompositeSet) : CompositeSet :=
  ⟨f s.heredocs, f s.operators⟩

/-- The start of the heredoc part that contains an offset, unless it starts inside a quote
operator. -/
def heredocAt (s : CompositeSet) (pos : Nat) : Option Nat :=
  (s.heredocs.inString pos).filter (fun start => (s.operators.inString start).isNone)

/-- The start of the heredoc or quote operator that contains an offset. A heredoc part that starts
inside a quote operator does not count, and neither does a quote operator that starts inside a
heredoc that counts. -/
def inEither (s : CompositeSet) (pos : Nat) : Option Nat :=
  match s.heredocAt pos with
  | some start => some start
  | none => (s.operators.inString pos).filter (fun start => (s.heredocAt start).isNone)

/-- Whether one of the entries from ordinal `index` on has another length than in the last
committed pass. -/
def someLengthChanged (s : IntervalSet) : Nat → List Interval → Checked Bool
  | _, [] => return false
  | index, iv :: rest => do
    let changed ← s.lengthChanged index (← iv.length)
    return changed || (← someLengthChanged s (index + 1) rest)

/-- Keeps the counts of a set whose entries came from `tested` openers, and tells whether the
counts or the length of some entry differ from the last committed pass. -/
def entriesChanged (s : IntervalSet) (tested : Nat) : Checked (IntervalSet × Bool) := do
  let s := s.count tested s.size
  let changed ← someLengthChanged s 0 s.intervals.toList
  return (s, s.sizeChanged || changed)

/-- `entriesChanged` for the heredocs. -/
def heredocChange (s : CompositeSet) (tested : Nat) : Checked (CompositeSet × Bool) := do
  let (heredocs, changed) ← entriesChanged s.heredocs tested
  return ({ s with heredocs }, changed)

/-- `entriesChanged` for the quote operators. -/
def operatorChange (s : CompositeSet) (tested : Nat) : Checked (CompositeSet × Bool) := do
  let (operators, changed) ← entriesChanged s.operators tested
  return ({ s with operators }, changed)

/-- Whether either set changed its layout outside the edited section. -/
def layoutChange (s : CompositeSet) (w : EditWindow) : Checked Bool := do
  if ← s.heredocs.layoutChange w then
    return true
  s.operators.layoutChange w

end CompositeSet

end LexPaint
