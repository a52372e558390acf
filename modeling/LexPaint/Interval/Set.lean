import LexPaint.Bisect
import LexPaint.Interval.Basic
import LexPaint.Section
/-!
# Interval sets

An interval set holds the intervals of one literal kind that the current pass has found, ordered
by start, and keeps those of the last committed pass beside them. Change detection compares the
two: the counts of tested and accepted candidates, the kind or length at each ordinal, and finally
the layout outside the edited section.

## Main definitions

* `IntervalSet`: the current and the retained intervals of one kind.
* `IntervalSet.add`, `IntervalSet.reset`, `IntervalSet.commit`: how a set changes.
* `IntervalSet.intervalAt`, `IntervalSet.inString`, `IntervalSet.overlaps`: containment queries,
  answered by the nearest interval that starts early enough.
* `outsidePieces`, `IntervalSet.layoutChange`: the comparison outside an edited section.
-/

namespace LexPaint

/-- How many candidates a pass tested and how many of them it accepted. -/
structure Tally where
  /-- The candidates looked at. -/
  tested : Nat
  /-- The candidates that became intervals. -/
  accepted : Nat
deriving DecidableEq, Repr, Inhabited

/-- The intervals of one literal kind, in the current pass and in the last committed one. -/
@[ext]
structure IntervalSet where
  /-- The intervals of the current pass, ordered by start. -/
  intervals : Array Interval
  /-- The counts of the current pass. -/
  counts : Tally
  /-- The intervals of the last committed pass. -/
  retained : Array Interval
  /-- The counts of the last committed pass. -/
  retainedCounts : Tally
deriving DecidableEq, Repr

namespace IntervalSet

/-- A set without intervals and without history. -/
def empty : IntervalSet :=
  ⟨#[], ⟨0, 0⟩, #[], ⟨0, 0⟩⟩

instance : Inhabited IntervalSet := ⟨empty⟩

/-- The number of current intervals. -/
def size (s : IntervalSet) : Nat :=
  s.intervals.size

/-- Whether there are no current intervals. -/
def isEmpty (s : IntervalSet) : Bool :=
  s.intervals.isEmpty

/-- Drops the intervals of the current pass and keeps the history. -/
def reset (s : IntervalSet) : IntervalSet :=
  { s with intervals := #[], counts := ⟨0, 0⟩ }

/-- Drops the history. -/
def clearHistory (s : IntervalSet) : IntervalSet :=
  { s with retained := #[], retainedCounts := ⟨0, 0⟩ }

/-- Makes the current pass the history of the next one. -/
def commit (s : IntervalSet) : IntervalSet :=
  { s with retained := s.intervals, retainedCounts := s.counts }

/-- Puts an interval into an array ordered by start, behind all that start at or before it. -/
def insertOrdered (intervals : Array Interval) (iv : Interval) : Array Interval :=
  match intervals.back? with
  | some last =>
    if iv.start < last.start then
      intervals.insertIdxIfInBounds (bisect intervals (fun x => x.start ≤ iv.start)) iv
    -- scans go forward, so this is the usual case
    else intervals.push iv
  | none => intervals.push iv

/-- Records an interval, keeping the set ordered by start. -/
def add (s : IntervalSet) (iv : Interval) : IntervalSet :=
  { s with intervals := insertOrdered s.intervals iv }

/-- Records several intervals, one after the other. -/
def addAll (s : IntervalSet) (ivs : Array Interval) : IntervalSet :=
  ivs.foldl add s

/-- Keeps the counts of the current pass. -/
def count (s : IntervalSet) (tested accepted : Nat) : IntervalSet :=
  { s with counts := ⟨tested, accepted⟩ }

/-- Whether the counts of the current pass differ from those of the last committed one. -/
def sizeChanged (s : IntervalSet) : Bool :=
  s.counts != s.retainedCounts

/-- Whether the interval at an ordinal had another kind in the last committed pass, or was not
there. -/
def kindChanged (s : IntervalSet) (index : Nat) (kind : IntervalKind) : Bool :=
  (s.retained[index]?).map Interval.kind != some kind

/-- Whether the interval at an ordinal had another length in the last committed pass, or was not
there. -/
def lengthChanged (s : IntervalSet) (index length : Nat) : Checked Bool :=
  match s.retained[index]? with
  | some iv => return (← iv.length) != length
  | none => return true

/-- The last of the intervals that satisfy `p`, where those come first. -/
def lastWhere (s : IntervalSet) (p : Interval → Bool) : Option Interval :=
  match bisect s.intervals p with
  | 0 => none
  | n + 1 => s.intervals[n]?

/-- The interval that contains an offset: the nearest one that starts at or before it, if it ends
after it. -/
def intervalAt (s : IntervalSet) (pos : Nat) : Option Interval :=
  (s.lastWhere (fun iv => iv.start ≤ pos)).filter (fun iv => iv.contains pos)

/-- The start of the interval that contains an offset. -/
def inString (s : IntervalSet) (pos : Nat) : Option Nat :=
  (s.intervalAt pos).map Interval.start

/-- Whether the nearest interval that starts before `stop` ends after `start`. -/
def overlaps (s : IntervalSet) (start stop : Nat) : Bool :=
  (s.lastWhere (fun iv => iv.start < stop)).any (fun iv => start < iv.stop)

/-- The first interval that starts at or after an offset. -/
def firstFrom (s : IntervalSet) (pos : Nat) : Option Interval :=
  s.intervals[bisect s.intervals (fun iv => iv.start < pos)]?

end IntervalSet

/-- The part of an interval before `beforeEnd`, if it starts there. -/
def pieceBefore (beforeEnd : Nat) (iv : Interval) : List Interval :=
  if iv.start < beforeEnd then [⟨iv.start, min iv.stop beforeEnd, iv.kind⟩] else []

/-- The part of an interval from `afterStart` on, moved by `move`, if it reaches so far. -/
def pieceAfter (afterStart : Nat) (move : Nat → Checked Nat) (iv : Interval) :
    Checked (List Interval) :=
  if afterStart < iv.stop then do
    let start ← move (max iv.start afterStart)
    let stop ← move iv.stop
    pure [⟨start, stop, iv.kind⟩]
  else pure []

/-- The parts of intervals before `beforeEnd` and from `afterStart` on, the latter moved by
`move`. -/
def outsidePieces (beforeEnd afterStart : Nat) (move : Nat → Checked Nat) :
    List Interval → Checked (List Interval)
  | [] => pure []
  | iv :: rest => do
    let after ← pieceAfter afterStart move iv
    let others ← outsidePieces beforeEnd afterStart move rest
    pure (pieceBefore beforeEnd iv ++ after ++ others)

namespace IntervalSet

/-- Whether the intervals that reach outside the edited section differ from those of the last
committed pass once these are moved through the edit. Intervals inside the section may change
freely, because a local pass repaints all of it. -/
def layoutChange (s : IntervalSet) (w : EditWindow) : Checked Bool := do
  let current ← outsidePieces w.start w.stop pure s.intervals.toList
  let previous ← outsidePieces w.start w.oldStop w.shift s.retained.toList
  return current != previous

end IntervalSet

end LexPaint
