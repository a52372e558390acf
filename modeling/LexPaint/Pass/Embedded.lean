import LexPaint.Pass.Basic
/-!
# Embedded sections

A region between two tags is lexed by another profile. For an element the start tag has to end like
one, and the region lies between the start and the end tag, which stay ordinary markup. Otherwise
the region includes both marks, which are painted as such. A region never reaches into a later
embedded section, and it runs to the end of the scope if nothing closes it.

## Main definitions

* `Region`: an embedded section that was found.
* `Frame.regionStep`: mapping the next one.
* `Pass.mapRegions`: mapping, painting and lexing the embedded sections of a scope.
-/

namespace LexPaint

/-- An embedded section that was found. -/
structure Region where
  /-- Where the start tag starts. -/
  tagStart : Nat
  /-- The offset just past the start tag. -/
  tagStop : Nat
  /-- Where the embedded code starts. -/
  codeStart : Nat
  /-- Where the embedded code ends. -/
  codeStop : Nat
  /-- The offset of the end tag, if there is one. -/
  closing : Option Nat
  /-- The section as it is mapped. -/
  interval : Interval
deriving DecidableEq, Repr, Inhabited

namespace Frame

/-- ASCII white space other than the vertical tab. -/
def isSpace (b : UInt8) : Bool :=
  b == 0x20 || b == 0x09 || b == 0x0A || b == 0x0C || b == 0x0D

/-- The offset just past the `>` that closes an opening tag, stepping over quoted values. -/
def openingTagEnd (t : Text) (i hi : Nat) : Option Nat :=
  if i < hi then
    if t.byteIs (· == 0x3E) i then some (i + 1)
    else
      match (t.byteAt i).filter isQuote with
      | some quote =>
        match t.findByte (· == quote) (i + 1) hi with
        | some close => openingTagEnd t (max (close + 1) (i + 1)) hi
        | none => none
      | none => openingTagEnd t (i + 1) hi
  else none
termination_by hi - i

/-- Where the code behind a start tag starts; an element's tag has to end like one. -/
def codeStart (f : Frame) (element : Bool) (tagStop : Nat) : Option Nat :=
  if element then
    if tagStop < f.hi then
      if f.text.byteIs (· == 0x3E) tagStop then some (tagStop + 1)
      else if f.text.byteIs isSpace tagStop then
        some ((openingTagEnd f.text tagStop f.hi).getD f.hi)
      else none
    else none
  else some tagStop

/-- The region that a start tag opens, given the embedded sections mapped so far. -/
def regionAt (f : Frame) (endTag : Mark) (element : Bool) (name : String) (embedded : IntervalSet)
    (tagStart tagStop codeStart : Nat) : Checked Region := do
  let limit := ((embedded.firstFrom codeStart).map Interval.start).getD f.hi
  f.text.checkRange codeStart limit
  let closing := f.text.find endTag codeStart limit
  let codeStop := closing.getD limit
  let interval : Interval :=
    if element then ⟨codeStart, codeStop, .embedded name⟩
    else ⟨tagStart, (closing.map (· + endTag.length)).getD codeStop, .embedded name⟩
  return ⟨tagStart, tagStop, codeStart, codeStop, closing, interval⟩

/-- Records an embedded section unless it is empty. -/
def addRegion (embedded : IntervalSet) (r : Region) : IntervalSet :=
  if r.interval.isEmpty then embedded else embedded.add r.interval

/-- Goes to the next start tag and maps its region. A start tag inside an embedded section or a
comment opens none. -/
def regionStep (f : Frame) (l : Layout) (startTag endTag : Mark) (element : Bool) (name : String)
    (pos : Nat) (embedded : IntervalSet) : Checked (Sweep.Move IntervalSet Region) := do
  f.text.checkRange pos f.hi
  match f.text.find startTag pos f.hi with
  | none => return .stop
  | some start =>
    let behind := start + startTag.length
    if (embedded.inString start).isSome || (l.blockComments.inString start).isSome then
      return .go .nothing behind embedded
    match f.codeStart element behind with
    | none => return .go .nothing behind embedded
    | some code =>
      let r ← f.regionAt endTag element name embedded start behind code
      return .go (.accepted r) (max r.interval.stop behind) (addRegion embedded r)

end Frame

namespace Pass

/-- Paints the marks around a region that includes them. -/
def paintRegionMarks (s : Scene) (endTag : Mark) (element : Bool) (r : Region) (canvas : Buffer) :
    Buffer :=
  if element then canvas
  else
    let canvas := s.paint canvas r.tagStart r.tagStop .embeddedMarker
    match r.closing with
    | some closing => s.paint canvas closing (closing + endTag.length) .embeddedMarker
    | none => canvas

/-- Maps the regions between two tags, paints their marks, and lets `body` lex each of them. -/
def mapRegions (s : Scene) (f : Frame) (startTag endTag : Mark) (element : Bool) (name : String)
    (dialect : Dialect) (body : Frame → Pass → Checked Pass) (p : Pass) : Checked Pass := do
  if startTag.isEmpty then
    return p
  let harvest ←
    Sweep.collect (f.regionStep p.layout startTag endTag element name) f.hi f.lo p.layout.embedded
  let embedded := harvest.items.foldl Frame.addRegion p.layout.embedded
  harvest.items.foldlM
    (fun p r =>
      delegate f r.codeStart r.codeStop dialect body
        { p with canvas := paintRegionMarks s endTag element r p.canvas })
    { p with layout := { p.layout with embedded } }

/-- Maps the whole scope as one embedded section and lets `body` lex it. -/
def embedScope (f : Frame) (name : String) (dialect : Dialect)
    (body : Frame → Pass → Checked Pass) (p : Pass) : Checked Pass :=
  let interval : Interval := ⟨f.lo, f.hi, .embedded name⟩
  let embedded :=
    if interval.isEmpty then p.layout.embedded else p.layout.embedded.add interval
  delegate f f.lo f.hi dialect body { p with layout := { p.layout with embedded } }

end Pass

end LexPaint
