import LexPaint.Interval.Composite
/-!
# Layouts

The layout of a scope is everything that lexing has mapped in it: strings, comments, heredocs,
quote operators, tags, attribute values and embedded sections. A scope is the document, or one
embedded section while its profile runs.

## Main definitions

* `Layout`: the interval sets of a scope.
* `Layout.inComment`, `Layout.inLiteral`: containment in any literal of a sort.
* `RepairReason`: what made a local pass insufficient.
* `Layout.layoutChange`: the first set whose layout changed outside the edited section.
-/

namespace LexPaint

/-- Why a local pass had to be redone over the whole document. -/
inductive RepairReason where
  /-- The number or the kinds of the strings changed. -/
  | quoteMarks
  /-- The number of line comments changed. -/
  | lineCommentCount
  /-- The number or the lengths of the heredocs changed. -/
  | heredocEntries
  /-- The number or the lengths of the quote operators changed. -/
  | operatorEntries
  /-- Strings outside the section changed. -/
  | quotes
  /-- Line comments outside the section changed. -/
  | lineComments
  /-- Block comments outside the section changed. -/
  | blockComments
  /-- Heredocs outside the section changed. -/
  | heredocs
  /-- Quote operators outside the section changed. -/
  | quoteOperators
  /-- Tags outside the section changed. -/
  | tags
  /-- Attribute values outside the section changed. -/
  | attributeValues
  /-- Embedded sections outside the section changed. -/
  | embeddedSections
  /-- What embedded sections contain changed outside the section. -/
  | embeddedContent
deriving DecidableEq, Repr, Inhabited

namespace RepairReason

/-- The wording of a reason. -/
def message : RepairReason → String
  | quoteMarks => "quote marks changed"
  | lineCommentCount => "line comments changed"
  | heredocEntries => "heredocs changed"
  | operatorEntries => "quote operators changed"
  | quotes => "quotes"
  | lineComments => "line comments"
  | blockComments => "block comments"
  | heredocs => "heredocs"
  | quoteOperators => "quote operators"
  | tags => "tags"
  | attributeValues => "attribute values"
  | embeddedSections => "embedded sections"
  | embeddedContent => "embedded content"

end RepairReason

/-- The interval sets of one scope. -/
@[ext]
structure Layout where
  /-- Strings. -/
  quotes : IntervalSet
  /-- Comments that end with their line. -/
  lineComments : IntervalSet
  /-- Comments between an open and a close mark. -/
  blockComments : IntervalSet
  /-- Heredocs and quote operators. -/
  composite : CompositeSet
  /-- Tags. -/
  tags : IntervalSet
  /-- Quoted values inside tags. -/
  attributeValues : IntervalSet
  /-- Sections of embedded languages. -/
  embedded : IntervalSet
  /-- The starts of the line comments, in the order of their discovery. -/
  commentStarts : Array Nat
deriving DecidableEq, Repr

namespace Layout

/-- Nothing mapped and no history. -/
def empty : Layout :=
  ⟨.empty, .empty, .empty, .empty, .empty, .empty, .empty, #[]⟩

instance : Inhabited Layout := ⟨empty⟩

/-- Applies a change to every set. -/
def mapSets (f : IntervalSet → IntervalSet) (l : Layout) : Layout where
  quotes := f l.quotes
  lineComments := f l.lineComments
  blockComments := f l.blockComments
  composite := l.composite.mapSets f
  tags := f l.tags
  attributeValues := f l.attributeValues
  embedded := f l.embedded
  commentStarts := l.commentStarts

/-- Drops what the current pass has mapped and keeps the history. -/
def reset (l : Layout) : Layout :=
  { l.mapSets .reset with commentStarts := #[] }

/-- Makes the current pass the history of the next one. -/
def commit (l : Layout) : Layout :=
  l.mapSets .commit

/-- Drops the history. -/
def clearHistory (l : Layout) : Layout :=
  l.mapSets .clearHistory

/-- The sets in the order in which their layouts are compared, each with the reason that a change
of it gives. -/
def sets (l : Layout) : List (RepairReason × IntervalSet) :=
  [(.quotes, l.quotes), (.lineComments, l.lineComments), (.blockComments, l.blockComments),
    (.heredocs, l.composite.heredocs), (.quoteOperators, l.composite.operators),
    (.tags, l.tags), (.attributeValues, l.attributeValues), (.embeddedSections, l.embedded)]

/-- Every interval mapped, set after set. -/
def allIntervals (l : Layout) : List Interval :=
  l.sets.flatMap (fun entry => entry.2.intervals.toList)

/-- The first of the sets whose layout changed outside the edited section. -/
def firstChange (w : EditWindow) :
    List (RepairReason × IntervalSet) → Checked (Option RepairReason)
  | [] => pure none
  | (reason, set) :: rest => do
    if ← set.layoutChange w then pure (some reason) else firstChange w rest

/-- The first set of the layout that changed outside the edited section. -/
def layoutChange (l : Layout) (w : EditWindow) : Checked (Option RepairReason) :=
  firstChange w l.sets

/-- Whether an offset lies in a comment. -/
def inComment (l : Layout) (pos : Nat) : Bool :=
  (l.lineComments.inString pos).isSome || (l.blockComments.inString pos).isSome

/-- Whether an offset lies in any string or comment. -/
def inLiteral (l : Layout) (pos : Nat) : Bool :=
  (l.quotes.inString pos).isSome || (l.composite.inEither pos).isSome || l.inComment pos

end Layout

end LexPaint
