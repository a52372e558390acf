import LexPaint.Pass.Basic
import LexPaint.Text.Escape
/-!
# Strings

Double and single quoted strings, and text blocks in tripled quotes. A quote opens a string unless
it is escaped or lies in a heredoc, a quote operator or a comment. The comments are not mapped yet
at that time, so the line is searched for a comment mark and the comment scanner is asked.

## Main definitions

* `Frame.stringAt`: the string that a quote opens.
* `Pass.mapQuotes`: mapping and painting the strings of a scope.
-/

namespace LexPaint

namespace Frame

/-- Whether the quote at an offset opens no string. -/
def refusesQuote (f : Frame) (l : Layout) (pos : Nat) (cursor : Option CommentCursor) :
    Checked (Bool × Option CommentCursor) := do
  if ← f.text.isEscaped pos then
    return (true, cursor)
  if (l.composite.inEither pos).isSome then
    return (true, cursor)
  if ← f.behindLineComment pos then
    return (true, cursor)
  return inBlockComment cursor pos

/-- Whether the quote at an offset opens a text block. -/
def opensTextBlock (f : Frame) (condition : Condition) (quote : UInt8) (pos : Nat) :
    Checked Bool := do
  if condition = .textBlock && pos + 3 ≤ f.hi && f.text.hasAt pos (CommentRules.triple quote) then
    f.accepts pos condition
  else return false

/-- The end of the text block that three quotes at an offset open: behind the next three unescaped
quotes, or the end of the scope. -/
def textBlockEnd (f : Frame) (quote : UInt8) (pos : Nat) : Nat :=
  match f.text.findUnescaped (CommentRules.triple quote) (pos + 3) f.hi with
  | some i => i + 3
  | none => f.hi

/-- The end of the string that a quote at an offset opens: behind the next unescaped equal quote,
at the end of the line for strings that keep to it, or the end of the scope. -/
def quoteEnd (f : Frame) (singleLine : Bool) (quote : UInt8) (pos : Nat) : Nat :=
  match f.text.findClosing quote singleLine (pos + 1) f.hi with
  | .found i => i + 1
  | .lineEnd i => i
  | .unterminated => f.hi

/-- The string that a quote at an offset opens. -/
def stringAt (f : Frame) (condition : Condition) (singleLine : Bool) (quote : UInt8)
    (pos : Nat) : Checked Interval := do
  if ← f.opensTextBlock condition quote pos then
    return ⟨pos, f.textBlockEnd quote pos, .textBlock⟩
  let kind := if quote == doubleQuote then .double else .single
  return ⟨pos, f.quoteEnd singleLine quote pos, kind⟩

/-- Goes to the next quote of the scope and maps its string. -/
def quoteStep (f : Frame) (l : Layout) (condition : Condition) (singleLine : Bool) (pos : Nat)
    (cursor : Option CommentCursor) :
    Checked (Sweep.Move (Option CommentCursor) Interval) := do
  f.text.checkBytes pos f.hi
  match f.text.findByte isQuote pos f.hi with
  | none => return .stop
  | some start =>
    let (refused, cursor) ← f.refusesQuote l start cursor
    if refused then
      return .go .refused (start + 1) cursor
    let iv ← f.stringAt condition singleLine ((f.text.byteAt start).getD 0) start
    return .go (.accepted iv) (max iv.stop (start + 1)) cursor

end Frame

namespace Pass

/-- Whether one of the strings has another kind than the string at its ordinal in the last
committed pass. -/
def someKindChanged (s : IntervalSet) : Nat → List Interval → Bool
  | _, [] => false
  | index, iv :: rest => s.kindChanged index iv.kind || someKindChanged s (index + 1) rest

/-- Maps and paints the strings of a scope. -/
def mapQuotes (s : Scene) (f : Frame) (singleLine : Bool) (p : Pass) : Checked Pass := do
  f.text.checkRange 0 f.hi
  let harvest ←
    Sweep.collect (f.quoteStep p.layout p.condition singleLine) f.hi f.lo f.cursor
  let found := harvest.items
  let quotes := (p.layout.quotes.addAll found).count harvest.tested found.size
  let changed := quotes.sizeChanged || someKindChanged quotes 0 found.toList
  let p := { p with
    canvas := s.paintAll p.canvas found .string
    layout := { p.layout with quotes }
    condition := .unconditional }
  return p.repairIf s f changed .quoteMarks

end Pass

end LexPaint
