import LexPaint.Comment.Cursor
import LexPaint.Heredoc
import LexPaint.QuoteOperator
import LexPaint.Text.LineQuotes
/-!
# Dialects

A dialect is what a language tells about single candidates: whether one that was found may count,
whether it stands behind a line comment mark, and which rules its comments, heredocs and quote
operators follow. It is data, so two dialects can be compared and a dialect can be combined with
any list of primitives.

## Main definitions

* `Condition`: what a candidate is being considered for.
* `CandidateTest`: the tests a language can ask for.
* `Dialect`: the rules of a language.
* `Dialect.accepts`, `Dialect.behindLineMark`, `Dialect.inBlockComment`: the questions asked of it.
-/

namespace LexPaint

/-- What a candidate is being considered for. -/
inductive Condition where
  /-- Nothing in particular. -/
  | unconditional
  /-- A tripled quote may open a text block. -/
  | textBlock
  /-- A sign must introduce a variable. -/
  | sigil
  /-- A comment mark must open a comment. -/
  | commentMark
  /-- The candidate must start a line. -/
  | lineStart
  /-- The candidate opens a heredoc. -/
  | heredoc
  /-- The candidate is a quote operator. -/
  | quoteOperator
deriving DecidableEq, Repr, Inhabited

/-- A test of a candidate against the text around it. -/
inductive CandidateTest where
  /-- Three double quotes must be the last thing on their line. -/
  | lastOnLine
  /-- A comment mark must pass a filter. -/
  | filteredMark (filter : MarkFilter)
  /-- A letter or an underscore must follow. -/
  | nameFollows
  /-- A line must start here. -/
  | startsLine
  /-- The candidate must not be quoted on its line. -/
  | unquoted
  /-- The candidate must not be quoted on its line, and no sign, arrow, scope mark or opening brace
  may stand before it. -/
  | operatorPlace
deriving DecidableEq, Repr, Inhabited

namespace CandidateTest

/-- The bytes that turn a following word into a variable, a subscript or the like. -/
def isSign (b : UInt8) : Bool :=
  b == 0x24 || b == 0x40 || b == 0x25 || b == 0x26 || b == 0x2A || b == 0x7B

/-- Whether the mark ends at an offset. -/
def endsWith (t : Text) (pos : Nat) (m : Mark) : Bool :=
  m.length ≤ pos && t.hasAt (pos - m.length) m

/-- Whether what follows three double quotes on their line is blank and a newline ends it. -/
def blankToNewline (t : Text) (pos : Nat) : Bool :=
  match t.findByte (· == newline) pos t.size with
  | some stop => t.skipBlanks pos stop == stop
  | none => false

/-- Whether the candidate at an offset passes the test. -/
def holds (test : CandidateTest) (t : Text) (pos : Nat) : Checked Bool := do
  match test with
  | lastOnLine =>
    t.checkRange pos t.size
    return !t.hasAt pos (CommentRules.triple doubleQuote) || blankToNewline t (pos + 3)
  | filteredMark filter => filter.admits? t pos
  | nameFollows =>
    return (t.charAt (pos + 1)).any (fun c => Unicode.isAlphabetic c || c == '_')
  | startsLine => return pos == 0 || t.byteIs (· == newline) (pos - 1)
  | unquoted => return !t.inQuotesOnLine pos
  | operatorPlace =>
    t.checkRange 0 pos
    return !(0 < pos && t.byteIs isSign (pos - 1)) && !endsWith t pos [0x2D, 0x3E] &&
      !endsWith t pos [0x3A, 0x3A] && !t.inQuotesOnLine pos

end CandidateTest

/-- The rules of a language for single candidates. -/
structure Dialect where
  /-- The test for each condition that has one. -/
  tests : List (Condition × CandidateTest)
  /-- The marks that open a line comment. -/
  lineMarks : List Mark
  /-- Where a line comment mark does not open a comment. -/
  lineFilter : MarkFilter
  /-- The comment rules, for languages with block comments to keep quotes out of. -/
  comments : Option CommentRules
  /-- The heredocs of the language. -/
  heredocs : Option HeredocRules
  /-- The quote operators of the language. -/
  operators : Option QuoteOperatorRules
deriving DecidableEq, Repr, Inhabited

namespace Dialect

/-- The dialect that accepts every candidate and knows no comments. -/
def permissive : Dialect where
  tests := []
  lineMarks := []
  lineFilter := .everywhere
  comments := none
  heredocs := none
  operators := none

/-- Whether the candidate at an offset may count under a condition. -/
def accepts (d : Dialect) (t : Text) (pos : Nat) (condition : Condition) : Checked Bool :=
  match d.tests.lookup condition with
  | some test => test.holds t pos
  | none => pure true

/-- The line comment mark that an offset stands behind on its line. -/
def behindLineMark (d : Dialect) (t : Text) (pos : Nat) : Option Nat :=
  t.behindMarkOnLine pos d.lineMarks (d.lineFilter.admits t)

/-- The start of the block comment that an offset lies in. -/
def inBlockComment (d : Dialect) (t : Text) (pos : Nat) : Option Nat :=
  match d.comments with
  | some rules => ((CommentCursor.new t 0 rules).query pos).1
  | none => none

end Dialect

end LexPaint
