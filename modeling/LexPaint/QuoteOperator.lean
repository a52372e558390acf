import LexPaint.Text.Search
/-!
# Quote operators

A quote operator is a short word followed by a delimiter of the author's choice, such as `q(...)`
or `s/a/b/`. Bracket delimiters nest, any other delimiter closes with itself, and a backslash takes
the byte after it along. Some operators have two delimited parts: with brackets the second part
has delimiters of its own, otherwise the middle delimiter closes one part and opens the next.

## Main definitions

* `QuoteOperatorRules`: the operators of a language.
* `QuoteOperatorRules.delimiterAt`: the delimiter behind an operator.
* `QuoteOperatorRules.delimitedEnd`: the end of one delimited part.
* `QuoteOperatorRules.operatorEnd`: the end of the whole literal.

## Implementation notes

The depth of nested parts is a natural number. It stands for a signed counter of 32 bits, which counts
the same as long as a text has fewer than 2³¹ bytes, since every nested part takes a byte to open.
-/

namespace LexPaint

/-- The quote operators of a language. -/
structure QuoteOperatorRules where
  /-- All operators, longer ones before those they begin with. -/
  operators : List Mark
  /-- The operators with two delimited parts. -/
  twoPart : List Mark
deriving DecidableEq, Repr, Inhabited

namespace QuoteOperatorRules

/-- ASCII letters. -/
def isLetter (b : UInt8) : Bool :=
  (0x41 ≤ b && b ≤ 0x5A) || (0x61 ≤ b && b ≤ 0x7A)

/-- Bytes that make a word go on: ASCII letters and digits, the underscore, and every byte of a
character beyond ASCII. -/
def isWordByte (b : UInt8) : Bool :=
  isLetter b || (0x30 ≤ b && b ≤ 0x39) || b == 0x5F || 0x80 ≤ b

/-- ASCII punctuation. -/
def isPunctuation (b : UInt8) : Bool :=
  (0x21 ≤ b && b ≤ 0x2F) || (0x3A ≤ b && b ≤ 0x40) || (0x5B ≤ b && b ≤ 0x60) ||
    (0x7B ≤ b && b ≤ 0x7E)

/-- Whether a byte can open a delimited part: punctuation other than `=`, `,`, `;`, `_` and the
closing brackets. -/
def isDelimiter (b : UInt8) : Bool :=
  isPunctuation b &&
    !(b == 0x3D || b == 0x2C || b == 0x3B || b == 0x29 || b == 0x5D || b == 0x7D || b == 0x3E ||
      b == 0x5F)

/-- The byte that closes a part opened by a delimiter. -/
def closerOf (opener : UInt8) : UInt8 :=
  if opener == 0x28 then 0x29
  else if opener == 0x5B then 0x5D
  else if opener == 0x7B then 0x7D
  else if opener == 0x3C then 0x3E
  else opener

/-- The offset of the delimiter behind optional spaces and tabs. -/
def delimiterAt (t : Text) (pos hi : Nat) : Option Nat :=
  let start := t.skipBytes (fun b => b == 0x20 || b == 0x09) pos hi
  if start < hi && t.byteIs isDelimiter start then some start else none

/-- The offset just past the closer of the current part, or the end of the range; `depth` counts
the nested parts still open. It stays below the length of the text, so a counter of 32 bits holds it for
texts of fewer than 2³¹ bytes. -/
def closeFrom (t : Text) (opener closer : UInt8) (depth i hi : Nat) : Nat :=
  if i < hi then
    -- a backslash takes the next byte along, even a closer
    if t.byteIs (· == backslash) i then closeFrom t opener closer depth (i + 2) hi
    else if closer != opener && t.byteIs (· == opener) i then
      closeFrom t opener closer (depth + 1) (i + 1) hi
    else if t.byteIs (· == closer) i then
      match depth with
      | 0 => i + 1
      | d + 1 => closeFrom t opener closer d (i + 1) hi
    else closeFrom t opener closer depth (i + 1) hi
  else hi
termination_by hi - i

/-- The offset just past the part whose delimiter stands at `start`, or the end of the range. -/
def delimitedEnd (t : Text) (start hi : Nat) : Checked Nat :=
  match t.byteAt start with
  | some opener => .ok (closeFrom t opener (closerOf opener) 0 (start + 1) hi)
  | none => .error .outOfRange

/-- The offset just past a literal whose first delimiter stands at `start`. -/
def operatorEnd (r : QuoteOperatorRules) (t : Text) (operator : Mark) (start hi : Nat) :
    Checked Nat := do
  let stop ← delimitedEnd t start hi
  if r.twoPart.contains operator && stop < hi then
    if t.byteIs (fun b => closerOf b != b) start then
      match delimiterAt t stop hi with
      | some second => delimitedEnd t second hi
      | none => pure stop
    -- the closer of the first part is the opener of the second one
    else delimitedEnd t (← minus stop 1) hi
  else pure stop

/-- The first listed operator that stands as a word at an offset and ends by `hi`. What follows
it is looked at in the whole text. -/
def operatorAt (r : QuoteOperatorRules) (t : Text) (pos hi : Nat) : Option Mark :=
  r.operators.find? fun op =>
    pos + op.length ≤ hi && t.hasAt pos op && !t.byteIs isWordByte (pos + op.length)

end QuoteOperatorRules

end LexPaint
