import LexPaint.Text.Search
/-!
# Heredocs

A heredoc is opened by a token that names a tag. Its body starts on the next line and ends with
the first line that closes the tag. Languages differ in the mark that opens it, in what may stand
between the mark and the tag, and in how a line closes it.

## Main definitions

* `HeredocRules`: the openers and terminators of a language.
* `HeredocRules.openerAt`, `HeredocRules.nextOpener`: the opener at an offset, and the first one
  from an offset on.
* `HeredocRules.terminatorEnd`: whether a line closes a heredoc, and where.
-/

namespace LexPaint

/-- How a line closes a heredoc. -/
inductive HeredocTerminator where
  /-- The line is the tag alone, behind white space if the opener asked for indentation. -/
  | exactLine
  /-- The first word of the line is the tag. -/
  | flexible
deriving DecidableEq, Repr, Inhabited

/-- The openers and terminators of a language's heredocs. -/
structure HeredocRules where
  /-- The mark that starts an opener. -/
  opener : Mark
  /-- The byte behind the mark that asks for an indented heredoc, if there is one. -/
  indentFlag : Option UInt8
  /-- Whether spaces and tabs may stand before the tag. -/
  blanksBeforeTag : Bool
  /-- How a line closes the heredoc. -/
  terminator : HeredocTerminator
deriving DecidableEq, Repr, Inhabited

/-- An opener found in a text. -/
structure HeredocOpener where
  /-- Where the opener starts. -/
  start : Nat
  /-- The offset just past the opener. -/
  stop : Nat
  /-- The tag that closes the heredoc. -/
  tag : Mark
  /-- Whether the closing tag may be indented. -/
  indented : Bool
deriving DecidableEq, Repr, Inhabited

namespace HeredocRules

/-- Whether a byte can start a tag: an ASCII letter or an underscore. -/
def startsTag (b : UInt8) : Bool :=
  (0x41 ≤ b && b ≤ 0x5A) || (0x61 ≤ b && b ≤ 0x7A) || b == 0x5F

/-- The end of the tag that starts at an offset, cut at the end of the text. -/
def tagEnd (t : Text) (pos : Nat) : Option Nat :=
  if t.byteIs startsTag pos then some (t.skipChars Unicode.isTagChar (pos + 1) t.size) else none

/-- The bytes from `lo` up to `hi` as a mark. -/
def tagBetween (t : Text) (lo hi : Nat) : Mark :=
  (t.between lo hi).bytes.data.toList

/-- The tag at an offset, bare or between equal quotes, and the offset just past it. -/
def tagAt (t : Text) (pos : Nat) : Option (Mark × Nat) :=
  match (t.byteAt pos).filter isQuote with
  | some quote => do
    let stop ← tagEnd t (pos + 1)
    if t.byteIs (· == quote) stop then some (tagBetween t (pos + 1) stop, stop + 1) else none
  | none => do
    let stop ← tagEnd t pos
    some (tagBetween t pos stop, stop)

/-- The opener that starts at an offset. -/
def openerAt (r : HeredocRules) (t : Text) (pos : Nat) : Option HeredocOpener :=
  if t.hasAt pos r.opener then do
    let behindMark := pos + r.opener.length
    let indented := r.indentFlag.any (fun flag => t.byteIs (· == flag) behindMark)
    let behindFlag := if indented then behindMark + 1 else behindMark
    let tagStart :=
      if r.blanksBeforeTag then t.skipBytes (fun b => b == 0x20 || b == 0x09) behindFlag t.size
      else behindFlag
    let (tag, stop) ← tagAt t tagStart
    some ⟨pos, stop, tag, indented⟩
  else none

/-- The first opener that starts at an offset or later. -/
def nextOpener (r : HeredocRules) (t : Text) (pos : Nat) : Option HeredocOpener :=
  if pos < t.size then
    match r.openerAt t pos with
    | some opener => some opener
    | none => r.nextOpener t (pos + 1)
  else none
termination_by t.size - pos

/-- All openers of a text that do not overlap an earlier one, from an offset on. -/
def openersFrom (r : HeredocRules) (t : Text) (pos : Nat) : List HeredocOpener :=
  match r.nextOpener t pos with
  | some opener =>
    -- an opener is never empty and ends in the text, so the walk goes on behind it
    if pos < opener.stop ∧ opener.stop ≤ t.size then opener :: r.openersFrom t opener.stop
    else [opener]
  | none => []
termination_by t.size - pos

/-- If a line closes a heredoc with this tag, the offset in the line just past the tag. A carriage
return at the end of the line does not belong to it. -/
def terminatorEnd (r : HeredocRules) (line : Text) (tag : Mark) (indented : Bool) : Option Nat :=
  let stop := if line.byteIs (· == 0x0D) (line.size - 1) then line.size - 1 else line.size
  match r.terminator with
  | .exactLine =>
    let start := if indented then line.skipBlanks 0 stop else 0
    if start + tag.length == stop && line.hasAt start tag then some stop else none
  | .flexible =>
    let start := line.skipBlanks 0 stop
    let tagStop := start + tag.length
    if tagStop ≤ stop && line.hasAt start tag then
      let continues := tagStop < stop && (line.charAt tagStop).any Unicode.isWordChar
      if continues then none else some tagStop
    else none

end HeredocRules

end LexPaint
