import LexPaint.Text.Search
/-!
# Sections and edit windows

A pass repaints one section of the document. After an edit the section is the full lines around
the edited range, so a token without a newline never straddles its ends. The edit window relates
the document before the edit to the one after it: what precedes the section is unchanged, and what
followed the section before the edit follows it again, shifted.

## Main definitions

* `Section`, `Section.lines`: a part of the document, and the full lines around a range.
* `EditWindow`, `EditWindow.ofSection?`: how offsets before an edit relate to offsets after it.
* `EditWindow.shift`: the new place of an offset after the section.
-/

namespace LexPaint

/-- A part of a document with its absolute start. -/
structure Section where
  /-- The text of the part. -/
  text : Text
  /-- The offset in the document at which it starts. -/
  start : Nat
deriving DecidableEq, Inhabited

namespace Section

/-- The whole document. -/
def whole (doc : Text) : Section :=
  ⟨doc, 0⟩

/-- The full lines of the document that the range from `first` to `last` touches. -/
def lines (doc : Text) (first last : Nat) : Checked Section := do
  let start := doc.lineStart (min first doc.size)
  let stop := doc.lineEnd (min (max last first) doc.size)
  return ⟨← doc.slice start stop, start⟩

/-- The length in bytes. -/
def length (s : Section) : Nat :=
  s.text.size

/-- The offset in the document just past the section. -/
def stop (s : Section) : Nat :=
  s.start + s.length

/-- Whether the section has no bytes. -/
def isEmpty (s : Section) : Bool :=
  s.text.isEmpty

/-- Whether the section is all of the document. -/
def isWhole (s : Section) (doc : Text) : Bool :=
  s.start == 0 && s.length == doc.size

end Section

/-- Relates the document before an edit to the one after it. Offsets before `start` are the same
in both. The text from `oldStop` on before the edit stands from `stop` on after it. -/
structure EditWindow where
  /-- Where the edited section starts, before and after the edit. -/
  start : Nat
  /-- Where the edited section ends after the edit. -/
  stop : Nat
  /-- Where the edited section ended before the edit. -/
  oldStop : Nat
deriving DecidableEq, Repr, Inhabited

namespace EditWindow

/-- The window of a section of the edited document, given both document lengths. There is none
when the lengths cannot come from an edit inside the section. -/
def ofSection? (s : Section) (oldLength newLength : Nat) : Option EditWindow :=
  if s.stop ≤ newLength then
    -- what lies behind the section was there before the edit
    let tail := newLength - s.stop
    if tail ≤ oldLength then
      let oldStop := oldLength - tail
      if s.start ≤ oldStop then some ⟨s.start, s.stop, oldStop⟩ else none
    else none
  else none

/-- The new place of an offset at or after the old end of the section. -/
def shift (w : EditWindow) (oldPos : Nat) : Checked Nat := do
  return (← minus oldPos w.oldStop) + w.stop

/-- From the old end of the section on, an offset moves along with that end. -/
theorem shift_of_le {w : EditWindow} {oldPos : Nat} (h : w.oldStop ≤ oldPos) :
    w.shift oldPos = .ok (oldPos - w.oldStop + w.stop) := by
  simp [shift, minus, h, bind, Except.bind, pure, Except.pure]

end EditWindow

end LexPaint
