import LexPaint.Text.Search
/-!
# Edit notifications

After a modification the buffer reports what happened. From the report, the current text and the
length before the edit follows the range that the edit has written, unless the report does not fit.

## Main definitions

* `Notification`: the report of one edit.
* `Notification.editedRange`: the range written by it.
-/

namespace LexPaint

/-- What a buffer reports after a modification. -/
inductive Notification where
  /-- Something changed at an offset; how much follows from the two document lengths. -/
  | changed (pos : Nat) (newlineInserted : Bool)
  /-- A text was inserted at an offset. -/
  | inserted (pos : Nat) (text : Text)
  /-- A number of bytes was removed at an offset. -/
  | removed (pos length : Nat)
deriving DecidableEq, Inhabited

namespace Notification

/-- The offset at which the edit happened. -/
def position : Notification → Nat
  | changed pos _ => pos
  | inserted pos _ => pos
  | removed pos _ => pos

/-- The range that the edit claims to have written, if the lengths fit and an inserted text is
found where it should be. A fresh line break also counts the line before it as written. -/
def claimedRange (n : Notification) (doc : Text) (oldLength : Nat) : Option (Nat × Nat) :=
  match n with
  | changed pos newlineInserted =>
    let start := if newlineInserted then pos - 1 else pos
    -- more is gone than stood behind the offset
    if doc.size < oldLength && oldLength < pos + (oldLength - doc.size) then none
    else some (start, pos + (doc.size - oldLength))
  | inserted pos text =>
    if oldLength + text.size != doc.size then none
    else
      match doc.slice pos (pos + text.size) with
      | .ok found => if found = text then some (pos, pos + text.size) else none
      | .error _ => none
  | removed pos length =>
    if doc.size + length != oldLength then none else some (pos, pos)

/-- The range of the document that the edit has written, given the length before it. A range that
ends past the document or cuts a character is none. -/
def editedRange (n : Notification) (doc : Text) (oldLength : Nat) : Option (Nat × Nat) :=
  (n.claimedRange doc oldLength).filter fun range =>
    range.2 ≤ doc.size && doc.isBoundary range.1 && doc.isBoundary range.2

end Notification

end LexPaint
