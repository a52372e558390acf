import LexPaint.Fault
/-!
# Intervals

A literal found in a text, such as a string, a comment or an embedded section, is recorded as a
half-open range of offsets together with its kind.

## Main definitions

* `IntervalKind`: what kind of literal an interval is.
* `Interval`: a range with its kind.
-/

namespace LexPaint

/-- What kind of literal an interval is. -/
inductive IntervalKind where
  /-- A double quoted string. -/
  | double
  /-- A single quoted string. -/
  | single
  /-- A string in tripled quotes, which may span lines. -/
  | textBlock
  | lineComment
  | blockComment
  /-- The token that opens a heredoc. -/
  | heredocTag
  /-- The body of a heredoc with its closing tag. -/
  | heredoc
  | quoteOperator
  | tag
  | attributeValue
  /-- A section handed to the profile of this name. -/
  | embedded (profile : String)
deriving DecidableEq, Repr, Inhabited

/-- A half-open range of offsets with its kind. -/
@[ext]
structure Interval where
  /-- The first offset. -/
  start : Nat
  /-- The offset just past the last one. -/
  stop : Nat
  /-- What was found there. -/
  kind : IntervalKind
deriving DecidableEq, Repr, Inhabited

namespace Interval

/-- The number of offsets, which must not be negative. -/
def length (iv : Interval) : Checked Nat :=
  minus iv.stop iv.start

/-- Whether the interval has no offsets. -/
def isEmpty (iv : Interval) : Bool :=
  iv.stop ≤ iv.start

/-- Whether an offset lies in the interval. -/
def contains (iv : Interval) (pos : Nat) : Bool :=
  iv.start ≤ pos && pos < iv.stop

/-- An interval contains the offsets from its start on and in front of its end. -/
theorem contains_iff {iv : Interval} {pos : Nat} :
    iv.contains pos = true ↔ iv.start ≤ pos ∧ pos < iv.stop := by
  simp [contains]

end Interval

end LexPaint
