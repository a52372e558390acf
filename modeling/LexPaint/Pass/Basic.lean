import LexPaint.Buffer
import LexPaint.Layout
import LexPaint.Primitive
import LexPaint.Sweep
/-!
# Passes

A pass lexes a document once. It always maps all literals of every scope, and it paints what falls
into one section of the document. When the section is the whole document the pass is a full one;
otherwise it is a local one, which looks out for signs that the edit reached further.

## Main definitions

* `Scene`: what stays the same during a pass.
* `Frame`: the scope that is being lexed, which is the document or an embedded section.
* `Pass`: what changes while the pass goes on.
* `Frame.accepts`, `Frame.behindLineComment`, `Frame.inBlockComment`: questions of the dialect.
* `Pass.delegate`: lexing a part of the scope as a scope of its own.

## Implementation notes

Offsets are offsets in the document throughout. Only the dialect sees the text of the scope and
offsets in it, so that an embedded language behaves as if it owned a document.

Every primitive that asks for block comments makes a comment scanner of its own (`Frame.cursor`), where one
scanner could be kept for the whole pass. It makes no difference to the answers: whatever a scanner was
asked before, it answers as a new one would (`CommentCursor.Asked.query_eq_new`).
-/

namespace LexPaint

/-- What stays the same during a pass. -/
structure Scene where
  /-- The text of the document. -/
  text : Text
  /-- Where the section to paint starts. -/
  start : Nat
  /-- Where the section to paint ends. -/
  stop : Nat
  /-- Whether the pass looks out for changes beyond the section. -/
  detect : Bool
deriving DecidableEq, Inhabited

/-- The scope that is being lexed. -/
structure Frame where
  /-- The text of the document. -/
  text : Text
  /-- Where the scope starts. -/
  lo : Nat
  /-- Where the scope ends. -/
  hi : Nat
  /-- The text of the scope. -/
  scope : Text
  /-- The rules of the language of the scope. -/
  dialect : Dialect
  /-- Whether the scope is the document itself. -/
  outermost : Bool
deriving DecidableEq, Inhabited

/-- What changes while a pass goes on. -/
structure Pass where
  /-- The document with the styles painted so far. -/
  canvas : Buffer
  /-- What has been mapped in the current scope. -/
  layout : Layout
  /-- What has been mapped inside embedded sections. -/
  nested : IntervalSet
  /-- The condition for the next primitive that looks at one. -/
  condition : Condition
  /-- Why a full pass has to follow, once that is known. -/
  repair : Option RepairReason
deriving DecidableEq, Inhabited

namespace Scene

/-- Paints the part of a range that lies in the section. -/
def paint (s : Scene) (canvas : Buffer) (start stop : Nat) (style : Style) : Buffer :=
  let first := max start s.start
  let last := min stop s.stop
  if first < last then canvas.paint first (last - first) style else canvas

/-- Paints the parts of several intervals that lie in the section. -/
def paintAll (s : Scene) (canvas : Buffer) (ivs : Array Interval) (style : Style) : Buffer :=
  ivs.foldl (fun canvas iv => s.paint canvas iv.start iv.stop style) canvas

/-- Paints the parts of a range that lie in the section and outside the embedded intervals. -/
def paintOutside (s : Scene) (canvas : Buffer) (embedded : IntervalSet) (start stop : Nat)
    (style : Style) : Buffer :=
  let gaps := embedded.intervals.toList.filter (fun iv => start < iv.stop && iv.start < stop)
  let (canvas, first) := gaps.foldl
    (fun (canvas, first) iv =>
      (s.paint canvas first (max iv.start first) style, max first iv.stop))
    (canvas, start)
  s.paint canvas first stop style

/-- The part of the section that lies in a scope, as the range to look for tokens in. -/
def tokenRange (s : Scene) (f : Frame) : Nat × Nat :=
  let start := max s.start f.lo
  (start, max (min s.stop f.hi) start)

/-- Whether changes of counts are looked for: in a local pass, outside embedded sections. -/
def checks (s : Scene) (f : Frame) : Bool :=
  s.detect && f.outermost

end Scene

namespace Frame

/-- The document as a scope. -/
def document (text : Text) (dialect : Dialect) : Frame :=
  ⟨text, 0, text.size, text, dialect, true⟩

/-- A part of the document as a scope of its own. -/
def enter (f : Frame) (lo hi : Nat) (dialect : Dialect) : Checked Frame := do
  return ⟨f.text, lo, hi, ← f.text.slice lo hi, dialect, false⟩

/-- Whether the dialect lets the candidate at an offset count under a condition. -/
def accepts (f : Frame) (pos : Nat) (condition : Condition) : Checked Bool := do
  f.dialect.accepts f.scope (← minus pos f.lo) condition

/-- Whether an offset stands behind a line comment mark on its line. -/
def behindLineComment (f : Frame) (pos : Nat) : Checked Bool := do
  return (f.dialect.behindLineMark f.scope (← minus pos f.lo)).isSome

/-- A new scanner for the block comments of the scope, if the language has any. It stands for the one that
is kept through a pass, which answers alike by `CommentCursor.Asked.query_eq_new`. -/
def cursor (f : Frame) : Option CommentCursor :=
  f.dialect.comments.map (CommentCursor.new f.text f.lo)

/-- Whether an offset lies in a block comment of the scope, and the scanner after the query. -/
def inBlockComment (cursor : Option CommentCursor) (pos : Nat) : Bool × Option CommentCursor :=
  match cursor with
  | some c =>
    let (answer, c) := c.query pos
    (answer.isSome, some c)
  | none => (false, none)

end Frame

namespace Pass

/-- Asks for a full pass; the first reason given counts. -/
def requestRepair (p : Pass) (reason : RepairReason) : Pass :=
  match p.repair with
  | some _ => p
  | none => { p with repair := some reason }

/-- Asks for a full pass if a change was found and changes are looked for. -/
def repairIf (p : Pass) (s : Scene) (f : Frame) (changed : Bool) (reason : RepairReason) : Pass :=
  if s.checks f && changed then p.requestRepair reason else p

/-- Lexes a part of the scope as a scope of its own, and adds what was mapped there to what is
known of embedded sections. The layout and the condition of the outer scope stay as they are. -/
def delegate (f : Frame) (lo hi : Nat) (dialect : Dialect)
    (body : Frame → Pass → Checked Pass) (p : Pass) : Checked Pass := do
  let inner ← f.enter lo hi dialect
  let outer := p.layout
  let condition := p.condition
  let q ← body inner ⟨p.canvas, .empty, p.nested, .unconditional, p.repair⟩
  return ⟨q.canvas, outer, q.layout.allIntervals.foldl .add q.nested, condition, q.repair⟩

end Pass

end LexPaint
