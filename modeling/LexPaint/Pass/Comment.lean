import LexPaint.Pass.Basic
import LexPaint.Text.MarkFinder
/-!
# Comments

Line comments run from a mark to the end of the line, block comments from an open mark to the next
close mark. Both are mapped after the strings, so a mark inside a string opens nothing.

## Main definitions

* `Pass.mapLineComments`: mapping and painting line comments.
* `Pass.mapBlockComments`: mapping and painting block comments.
-/

namespace LexPaint

namespace Frame

/-! ### Line comments -/

/-- Whether the line comment mark at an offset opens no comment. -/
def refusesLineComment (f : Frame) (l : Layout) (condition : Condition) (pos : Nat)
    (cursor : Option CommentCursor) : Checked (Bool × Option CommentCursor) := do
  if (l.quotes.inString pos).isSome || (l.composite.inEither pos).isSome then
    return (true, cursor)
  let (commented, cursor) := inBlockComment cursor pos
  if commented then
    return (true, cursor)
  return (!(← f.accepts pos condition), cursor)

/-- Goes to the next line comment mark of the scope and maps its comment. -/
def lineCommentStep (f : Frame) (l : Layout) (condition : Condition) (pos : Nat)
    (state : Option CommentCursor × MarkFinder) :
    Checked (Sweep.Move (Option CommentCursor × MarkFinder) Interval) := do
  let (hit, finder) := state.2.find f.text pos f.hi
  match hit with
  | none => return .stop
  | some (start, length) =>
    let (refused, cursor) ← f.refusesLineComment l condition start state.1
    if refused then
      return .go .refused (start + length) (cursor, finder)
    let stop := min (f.text.lineEnd start) f.hi
    return .go (.accepted ⟨start, stop, .lineComment⟩) (max stop (start + length)) (cursor, finder)

/-! ### Block comments -/

/-- Whether a line comment was mapped that starts before an offset on its line. -/
def afterCommentStart (f : Frame) (starts : Array Nat) (pos : Nat) : Checked Bool := do
  match bisect starts (fun start => start ≤ pos) with
  | 0 => return false
  | n + 1 =>
    let start := (starts[n]?).getD 0
    f.text.checkRange start pos
    return (f.text.findByte (· == newline) start pos).isNone

/-- Whether the open mark of a block comment at an offset opens none, given the block comments
mapped so far. -/
def refusesBlockComment (f : Frame) (l : Layout) (condition : Condition) (ignoreQuoted : Bool)
    (pos : Nat) (blocks : IntervalSet) : Checked Bool := do
  if (ignoreQuoted && (l.quotes.inString pos).isSome) || (l.composite.inEither pos).isSome ||
      (blocks.inString pos).isSome || (l.embedded.inString pos).isSome then
    return true
  if ← f.afterCommentStart l.commentStarts pos then
    return true
  return !(← f.accepts pos condition)

/-- Goes to the next open mark of a block comment and maps its comment. -/
def blockCommentStep (f : Frame) (l : Layout) (condition : Condition) (opener closer : Mark)
    (ignoreQuoted : Bool) (pos : Nat) (blocks : IntervalSet) :
    Checked (Sweep.Move IntervalSet Interval) := do
  f.text.checkRange pos f.hi
  match f.text.find opener pos f.hi with
  | none => return .stop
  | some start =>
    let body := start + opener.length
    if ← f.refusesBlockComment l condition ignoreQuoted start blocks then
      return .go .refused body blocks
    f.text.checkRange body f.hi
    let stop :=
      match f.text.find closer body f.hi with
      | some i => i + closer.length
      | none => f.hi
    let iv := ⟨start, stop, .blockComment⟩
    -- the blocks mapped so far decide which marks count later on
    return .go (.accepted iv) (max stop body) (blocks.add iv)

end Frame

namespace Pass

/-- Maps and paints the line comments of a scope. -/
def mapLineComments (s : Scene) (f : Frame) (marks : List Mark) (p : Pass) : Checked Pass := do
  let harvest ←
    Sweep.collect (f.lineCommentStep p.layout p.condition) f.hi f.lo (f.cursor, .new marks)
  let found := harvest.items
  let lineComments := (p.layout.lineComments.addAll found).count harvest.tested found.size
  let commentStarts := p.layout.commentStarts ++ found.map Interval.start
  let p := { p with
    canvas := s.paintAll p.canvas found .comment
    layout := { p.layout with lineComments, commentStarts }
    condition := .unconditional }
  return p.repairIf s f lineComments.sizeChanged .lineCommentCount

/-- Maps and paints the block comments of a scope. An unclosed one runs to the end of the scope. -/
def mapBlockComments (s : Scene) (f : Frame) (opener closer : Mark) (ignoreQuoted : Bool)
    (p : Pass) : Checked Pass := do
  let harvest ←
    Sweep.collect (f.blockCommentStep p.layout p.condition opener closer ignoreQuoted) f.hi f.lo
      p.layout.blockComments
  let found := harvest.items
  return { p with
    canvas := s.paintAll p.canvas found .comment
    layout := { p.layout with blockComments := p.layout.blockComments.addAll found }
    condition := .unconditional }

end Pass

end LexPaint
