import LexPaint.Text.Search
/-!
# Quotes on a line

Before the strings of a line are known, a plain toggle tells whether an offset is quoted: a quote
opens, the next equal quote closes, and inside quotes a backslash takes the byte after it along.
Every line starts unquoted. The toggle is all that the test for an earlier comment mark needs.

## Main definitions

* `Text.inQuotesOnLine`: whether an offset is quoted on its line.
* `Text.behindMarkOnLine`: the first accepted comment mark that stands unquoted before an offset on
  its line.
-/

namespace LexPaint.Text

/-- The quote that is open at `pos`, when `quote` is open at `i`. -/
def openQuote (t : Text) (pos i : Nat) (quote : Option UInt8) : Option UInt8 :=
  if i < pos then
    match quote with
    | some q =>
      if t.byteIs (· == backslash) i then t.openQuote pos (i + 2) quote
      else if t.byteIs (· == q) i then t.openQuote pos (i + 1) none
      else t.openQuote pos (i + 1) quote
    | none =>
      if t.byteIs isQuote i then t.openQuote pos (i + 1) (t.byteAt i)
      else t.openQuote pos (i + 1) none
  else quote
termination_by pos - i

/-- Whether an offset lies inside a quote opened earlier on its line. -/
def inQuotesOnLine (t : Text) (pos : Nat) : Bool :=
  let pos := min pos t.size
  (t.openQuote pos (t.lineStart pos) none).isSome

/-- The first offset from `i` on and before `pos` at which one of the marks stands unquoted and
is accepted, when `quote` is open at `i`. -/
def firstMark (t : Text) (marks : List Mark) (accept : Nat → Bool) (pos i : Nat)
    (quote : Option UInt8) : Option Nat :=
  if i < pos then
    match quote with
    | some q =>
      if t.byteIs (· == backslash) i then t.firstMark marks accept pos (i + 2) quote
      else if t.byteIs (· == q) i then t.firstMark marks accept pos (i + 1) none
      else t.firstMark marks accept pos (i + 1) quote
    | none =>
      if t.byteIs isQuote i then t.firstMark marks accept pos (i + 1) (t.byteAt i)
      else if marks.any (t.hasAt i) && accept i then some i
      else t.firstMark marks accept pos (i + 1) none
  else none
termination_by pos - i

/-- The first accepted mark that stands unquoted before an offset on its line. -/
def behindMarkOnLine (t : Text) (pos : Nat) (marks : List Mark) (accept : Nat → Bool) :
    Option Nat :=
  let pos := min pos t.size
  t.firstMark marks accept pos (t.lineStart pos) none

end LexPaint.Text
