import LexPaint.Pass.Basic
/-!
# Tags

A tag starts at `<` followed by a letter, `/`, `!` or `?`. It ends behind `>`, or just before a `<`
that opens no embedded section, or with the scope. Quoted attribute values are mapped separately;
what looks like a name between them is painted as an attribute.

## Main definitions

* `TagFind`: a tag with its parts.
* `Frame.tagStep`: mapping the next tag.
* `Pass.mapTags`: mapping and painting the tags of a scope.
-/

namespace LexPaint

/-- A tag that was found, with its parts as bounds. -/
structure TagFind where
  /-- Where the tag starts. -/
  start : Nat
  /-- The offset just past the tag. -/
  stop : Nat
  /-- Where its name starts. -/
  nameStart : Nat
  /-- The offset just past its name. -/
  nameStop : Nat
  /-- The quoted values. -/
  values : List (Nat × Nat)
  /-- The attribute names. -/
  attributes : List (Nat × Nat)
deriving DecidableEq, Repr, Inhabited

namespace Frame

/-- The bytes of tag and attribute names: ASCII letters and digits, `_`, `:`, `.` and `-`. -/
def isNameByte (b : UInt8) : Bool :=
  (0x41 ≤ b && b ≤ 0x5A) || (0x61 ≤ b && b ≤ 0x7A) || (0x30 ≤ b && b ≤ 0x39) || b == 0x5F ||
    b == 0x3A || b == 0x2E || b == 0x2D

/-- Whether the byte behind `<` makes it start a tag: a letter, `/`, `!` or `?`. -/
def opensTag (b : UInt8) : Bool :=
  (0x41 ≤ b && b ≤ 0x5A) || (0x61 ≤ b && b ≤ 0x7A) || b == 0x2F || b == 0x21 || b == 0x3F

/-- The quoted values of a tag from an offset on, and the end of the tag. -/
def tagBody (t : Text) (embedded : IntervalSet) (i hi : Nat) : List (Nat × Nat) × Nat :=
  if i < hi then
    if t.byteIs (· == 0x3E) i then ([], i + 1)
    else if t.byteIs (· == 0x3C) i then
      -- an embedded section inside of a tag is stepped over, any other bracket ends the tag
      match embedded.intervalAt i with
      | some iv => tagBody t embedded (max iv.stop (i + 1)) hi
      | none => ([], i)
    else
      match (t.byteAt i).filter isQuote with
      | some quote =>
        let close :=
          match t.findByte (· == quote) (i + 1) hi with
          | some j => j + 1
          | none => hi
        let (values, stop) := tagBody t embedded (max close (i + 1)) hi
        ((i, close) :: values, stop)
      | none => tagBody t embedded (i + 1) hi
  else ([], hi)
termination_by hi - i

/-- The attribute names from an offset up to the end of a tag: runs of name bytes that start
outside the values and outside embedded sections. -/
def attributeRuns (t : Text) (embedded : IntervalSet) (i stop : Nat) (values : List (Nat × Nat)) :
    List (Nat × Nat) :=
  if i < stop then
    match values.head?.filter (fun value => value.1 == i) with
    | some value => attributeRuns t embedded (max value.2 (i + 1)) stop values.tail
    | none =>
      if t.byteIs isNameByte i && (embedded.inString i).isNone then
        let runStop := t.skipBytes isNameByte i stop
        (i, runStop) :: attributeRuns t embedded (max runStop (i + 1)) stop values
      else attributeRuns t embedded (i + 1) stop values
  else []
termination_by stop - i

/-- The tag that starts at an offset. -/
def tagAt (f : Frame) (l : Layout) (start : Nat) : TagFind :=
  let nameStart := if f.text.byteIs (· == 0x2F) (start + 1) then start + 2 else start + 1
  let nameStop :=
    f.text.skipBytes (fun b => isNameByte b || b == 0x21 || b == 0x3F) nameStart f.hi
  let (values, stop) := tagBody f.text l.embedded nameStop f.hi
  ⟨start, stop, nameStart, nameStop, values,
    attributeRuns f.text l.embedded nameStop stop values⟩

/-- Goes to the next `<` outside embedded sections and comments, and maps the tag it starts. -/
def tagStep (f : Frame) (l : Layout) (pos : Nat) (_ : Unit) :
    Checked (Sweep.Move Unit TagFind) := do
  f.text.checkBytes pos f.hi
  match f.text.findByte (· == 0x3C) pos f.hi with
  | none => return .stop
  | some start =>
    match (l.embedded.intervalAt start).or (l.blockComments.intervalAt start) with
    | some skipped => return .go .nothing (max skipped.stop (start + 1)) ()
    | none =>
      if f.text.byteIs opensTag (start + 1) then
        let tag := f.tagAt l start
        return .go (.accepted tag) (max tag.stop (start + 1)) ()
      return .go .nothing (start + 1) ()

end Frame

namespace Pass

/-- Paints a tag: its name, its attributes, and its values as far as they are not embedded. -/
def paintTag (s : Scene) (embedded : IntervalSet) (canvas : Buffer) (tag : TagFind) : Buffer :=
  let canvas := s.paint canvas tag.nameStart tag.nameStop .tagName
  let canvas := tag.attributes.foldl
    (fun canvas run => s.paint canvas run.1 run.2 .attributeName) canvas
  tag.values.foldl
    (fun canvas value => s.paintOutside canvas embedded value.1 value.2 .attributeValue) canvas

/-- Maps and paints the tags of a scope. -/
def mapTags (s : Scene) (f : Frame) (p : Pass) : Checked Pass := do
  let harvest ← Sweep.collect (f.tagStep p.layout) f.hi f.lo ()
  let tags := harvest.items.foldl
    (fun set tag => set.add ⟨tag.start, tag.stop, .tag⟩) p.layout.tags
  let attributeValues := harvest.items.foldl
    (fun set tag =>
      tag.values.foldl (fun set value => set.add ⟨value.1, value.2, .attributeValue⟩) set)
    p.layout.attributeValues
  return { p with
    canvas := harvest.items.foldl (paintTag s p.layout.embedded) p.canvas
    layout := { p.layout with tags, attributeValues } }

end Pass

end LexPaint
