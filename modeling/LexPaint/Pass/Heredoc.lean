import LexPaint.Pass.Basic
/-!
# Mapping heredocs

The opener and the body of a heredoc are mapped as two intervals. The body starts on the next line
and ends with the line that closes the tag, or with the scope.

## Main definitions

* `Frame.bodyEnd`: the end of a heredoc's body.
* `Pass.mapHeredocs`: mapping and painting the heredocs of a scope.
-/

namespace LexPaint

namespace Frame

/-- The end of a heredoc's body, looked for line by line from an offset that starts a line. -/
def bodyEnd (f : Frame) (r : HeredocRules) (opener : HeredocOpener) (line : Nat) : Checked Nat :=
  if line < f.hi then do
    let stop := min (f.text.lineEnd line) f.hi
    match r.terminatorEnd (← f.text.slice line stop) opener.tag opener.indented with
    | some offset => return line + offset
    | none => f.bodyEnd r opener (max (stop + 1) (line + 1))
  else return f.hi
termination_by f.hi - line

/-- Whether the heredoc opener at an offset of the document opens none. -/
def refusesHeredoc (f : Frame) (pos : Nat) (cursor : Option CommentCursor) :
    Checked (Bool × Option CommentCursor) := do
  if ← f.behindLineComment pos then
    return (true, cursor)
  let (commented, cursor) := inBlockComment cursor pos
  if commented then
    return (true, cursor)
  return (!(← f.accepts pos .heredoc), cursor)

/-- Goes to the next heredoc opener and maps its opener and its body. Offsets of the sweep are
offsets in the scope. -/
def heredocStep (f : Frame) (r : HeredocRules) (pos : Nat) (cursor : Option CommentCursor) :
    Checked (Sweep.Move (Option CommentCursor) (Interval × Interval)) := do
  match r.nextOpener f.scope pos with
  | none => return .stop
  | some opener =>
    let start := f.lo + opener.start
    let stop := f.lo + opener.stop
    let (refused, cursor) ← f.refusesHeredoc start cursor
    if refused then
      -- a refused opener may have another one in it
      return .go .refused (opener.start + 1) cursor
    let bodyStart := min (f.text.lineEnd stop + 1) f.hi
    let bodyStop ← f.bodyEnd r opener bodyStart
    let next ← minus (max bodyStop stop) f.lo
    return .go (.accepted (⟨start, stop, .heredocTag⟩, ⟨bodyStart, bodyStop, .heredoc⟩)) next cursor

end Frame

namespace Pass

/-- Records the opener of a heredoc, and its body unless that is empty. -/
def addHeredoc (s : IntervalSet) (found : Interval × Interval) : IntervalSet :=
  let s := s.add found.1
  if found.2.isEmpty then s else s.add found.2

/-- Maps and paints the heredocs of a scope, if its language has any. -/
def mapHeredocs (s : Scene) (f : Frame) (p : Pass) : Checked Pass := do
  match f.dialect.heredocs with
  | none => return p
  | some rules =>
    let harvest ← Sweep.collect (f.heredocStep rules) f.scope.size 0 f.cursor
    let heredocs := harvest.items.foldl addHeredoc p.layout.composite.heredocs
    let (composite, changed) ←
      { p.layout.composite with heredocs }.heredocChange harvest.tested
    let canvas := harvest.items.foldl
      (fun canvas found =>
        s.paint (s.paint canvas found.1.start found.1.stop .string)
          found.2.start found.2.stop .string)
      p.canvas
    let p := { p with canvas, layout := { p.layout with composite } }
    return p.repairIf s f changed .heredocEntries

end Pass

end LexPaint
