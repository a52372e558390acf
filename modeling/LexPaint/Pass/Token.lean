import LexPaint.Pass.Basic
/-!
# Tokens

Keywords, variables and brackets never span lines, so they are only looked for in the section. They
are not mapped, just painted, and a token that starts inside a literal is left alone.

## Main definitions

* `Pass.paintKeywords`, `Pass.paintExtensible`: words, and words with the longest suffix that fits.
* `Pass.paintVariables`: names behind a sign.
* `Pass.paintMarks`: single bytes.
-/

namespace LexPaint

namespace Frame

/-- The end of the token that starts at an offset, if a token does. -/
abbrev TokenEnd : Type := Nat → Checked (Option Nat)

/-- Goes to the next occurrence of a mark and accepts the token that starts there, as its bounds,
unless it starts inside a literal or the dialect refuses it. -/
def tokenStep (f : Frame) (l : Layout) (condition : Condition) (needle : Mark)
    (tokenEnd : TokenEnd) (stop pos : Nat) (_ : Unit) :
    Checked (Sweep.Move Unit (Nat × Nat)) := do
  f.text.checkRange pos stop
  match f.text.find needle pos stop with
  | none => return .stop
  | some start =>
    -- the next occurrence may overlap this one
    let next := f.text.nextBoundary start
    match ← tokenEnd start with
    | none => return .go .nothing next ()
    | some tokenStop =>
      if l.inLiteral start then
        return .go .nothing next ()
      if ← f.accepts start condition then
        return .go (.accepted (start, tokenStop)) next ()
      return .go .nothing next ()

/-- The end of a word that starts at an offset, unless it is part of a longer word or one of some
characters precedes it. -/
def wordEnd (f : Frame) (word : Mark) (wholeWord : Bool) (notAfter : List Char) : TokenEnd :=
  fun start =>
    let stop := start + word.length
    let bounded := !wholeWord ||
      (!(f.text.charBefore start).any Unicode.isWordChar &&
        !(f.text.charAt stop).any Unicode.isWordChar)
    let allowed := !(f.text.charBefore start).any notAfter.contains
    .ok (if bounded && allowed then some stop else none)

/-- Whether a character belongs to a hyphenated word. -/
def isHyphenated (c : Char) : Bool :=
  Unicode.isWordChar c || c == '-'

/-- The length of the longest suffix that occurs at an offset. -/
def longestSuffix (t : Text) (pos : Nat) (suffixes : List Mark) : Nat :=
  ((suffixes.filter (t.hasAt pos)).map List.length).foldl max 0

/-- The end of a hyphenated word that starts with a base and goes on with the longest suffix that
fits, unless it is part of a longer word or a selector mark precedes it. -/
def extendedEnd (f : Frame) (base : Mark) (suffixes : List Mark) : TokenEnd :=
  fun start => do
    if (f.text.charBefore start).any (fun c => isHyphenated c || c == '.' || c == '#') then
      return none
    let behindBase := start + base.length
    f.text.checkRange behindBase f.text.size
    let stop := behindBase + longestSuffix f.text behindBase suffixes
    return if (f.text.charAt stop).any isHyphenated then none else some stop

/-- Whether a sign at an offset introduces no variable: it lies in a single quoted string or in a
comment, or the dialect refuses it. -/
def refusesVariable (f : Frame) (l : Layout) (condition : Condition) (pos : Nat) :
    Checked Bool := do
  if (l.quotes.intervalAt pos).any (fun iv => iv.kind = .single) || l.inComment pos then
    return true
  return !(← f.accepts pos condition)

/-- Goes to the next sign and accepts the variable it introduces, as its bounds. A hash sign right
behind the sign belongs to the name. -/
def variableStep (f : Frame) (l : Layout) (condition : Condition) (sign : Char)
    (ends exceptions : List Char) (stop pos : Nat) (_ : Unit) :
    Checked (Sweep.Move Unit (Nat × Nat)) := do
  f.text.checkRange pos stop
  match f.text.find (mark sign.toString) pos stop with
  | none => return .stop
  | some start =>
    let nameStart := start + sign.utf8Size
    match f.text.charAt nameStart with
    | none => return .go .nothing nameStart ()
    | some next =>
      if Unicode.isBlank next || exceptions.contains next then
        return .go .nothing nameStart ()
      if ← f.refusesVariable l condition start then
        return .go .nothing nameStart ()
      -- right behind the sign a hash sign opens no comment
      let nameFrom := if next = '#' then nameStart + 1 else nameStart
      f.text.checkRange nameFrom stop
      let nameStop :=
        (f.text.findChar (fun c => Unicode.isBlank c || ends.contains c) nameFrom stop).getD stop
      if nameFrom < nameStop then
        return .go (.accepted (start, nameStop)) nameStop ()
      return .go .nothing nameStart ()

/-- Goes to the next of some bytes and accepts it, as its bounds, unless it lies in a literal. -/
def markStep (f : Frame) (l : Layout) (bytes : List UInt8) (stop pos : Nat) (_ : Unit) :
    Checked (Sweep.Move Unit (Nat × Nat)) := do
  f.text.checkBytes pos stop
  match f.text.findByte bytes.contains pos stop with
  | none => return .stop
  | some start =>
    if l.inLiteral start then
      return .go .nothing (start + 1) ()
    return .go (.accepted (start, start + 1)) (start + 1) ()

end Frame

namespace Pass

/-- Sweeps the part of the section that lies in the scope, and paints what is accepted. -/
def paintTokens (s : Scene) (f : Frame)
    (step : Nat → Nat → Unit → Checked (Sweep.Move Unit (Nat × Nat))) (style : Style)
    (canvas : Buffer) : Checked Buffer := do
  let (start, stop) := s.tokenRange f
  let harvest ← Sweep.collect (step stop) stop start ()
  return harvest.items.foldl (fun canvas token => s.paint canvas token.1 token.2 style) canvas

/-- Paints every occurrence of a mark at which a token starts. There are none of an empty mark. -/
def paintOccurrences (s : Scene) (f : Frame) (l : Layout) (condition : Condition) (needle : Mark)
    (tokenEnd : Frame.TokenEnd) (style : Style) (canvas : Buffer) : Checked Buffer :=
  if needle.isEmpty then .ok canvas
  else paintTokens s f (f.tokenStep l condition needle tokenEnd) style canvas

/-- Paints every occurrence of some words outside strings and comments. -/
def paintKeywords (s : Scene) (f : Frame) (words : List Mark) (wholeWord : Bool)
    (notAfter : List Char) (style : Style) (p : Pass) : Checked Pass := do
  let canvas ← words.foldlM
    (fun canvas word =>
      paintOccurrences s f p.layout p.condition word (f.wordEnd word wholeWord notAfter) style
        canvas)
    p.canvas
  return { p with canvas, condition := .unconditional }

/-- Paints a base word together with the longest suffix that fits. -/
def paintExtensible (s : Scene) (f : Frame) (base : Mark) (suffixes : List Mark) (style : Style)
    (p : Pass) : Checked Pass := do
  let canvas ←
    paintOccurrences s f p.layout p.condition base (f.extendedEnd base suffixes) style p.canvas
  return { p with canvas, condition := .unconditional }

/-- Paints the variables that a sign introduces. Double quotes and heredocs are no obstacle. -/
def paintVariables (s : Scene) (f : Frame) (sign : Char) (ends exceptions : List Char)
    (p : Pass) : Checked Pass := do
  let canvas ←
    paintTokens s f (f.variableStep p.layout p.condition sign ends exceptions) .variableName
      p.canvas
  return { p with canvas, condition := .unconditional }

/-- Paints single bytes outside strings and comments. -/
def paintMarks (s : Scene) (f : Frame) (bytes : List UInt8) (style : Style) (p : Pass) :
    Checked Pass := do
  let canvas ← paintTokens s f (f.markStep p.layout bytes) style p.canvas
  return { p with canvas }

end Pass

end LexPaint
