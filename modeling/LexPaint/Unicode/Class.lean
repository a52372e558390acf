import LexPaint.Bisect
import LexPaint.Unicode.Alphabetic
import LexPaint.Unicode.Numeric
import LexPaint.Unicode.Joining
/-!
# Character classes

The character classes that lexing asks about, over all of Unicode. Two of them look alike and
differ: an identifier character is a letter, any number or an underscore, while a tag character
is a letter, a decimal digit, a mark, a connector or a join control. So `²` belongs to the first
class only, a combining accent to the second only. They also go by different editions of the
standard: identifiers by the 17th, tags by the 16th.

## Main definitions

* `isAlphabetic`, `isNumeric`: the plain Unicode classes of the 17th edition.
* `isEarlierAlphabetic`: the letters of the 16th edition.
* `isWordChar`: letters, numbers and the underscore.
* `isTagChar`: the characters of a heredoc tag after its first.
* `isBlank`: the Unicode property White_Space.
-/

namespace LexPaint.Unicode

/-- Whether a code point lies in one of the closed ranges of a table in increasing order. -/
def inRanges (table : Array (Nat × Nat)) (code : Nat) : Bool :=
  match table[bisect table (fun r => r.2 < code)]? with
  | some r => r.1 ≤ code
  | none => false

/-- Whether the character has the property Alphabetic in the 16th edition of the standard. -/
def isEarlierAlphabetic (c : Char) : Bool :=
  if c.toNat < 128 then c.isAlpha else inRanges alphabeticRanges c.toNat

/-- Whether the character has the property Alphabetic. -/
def isAlphabetic (c : Char) : Bool :=
  isEarlierAlphabetic c || inRanges addedAlphabeticRanges c.toNat

/-- Whether the character is a decimal digit, a letter number or another number. -/
def isNumeric (c : Char) : Bool :=
  if c.toNat < 128 then c.isDigit else inRanges numericRanges c.toNat

/-- Letters, numbers and the underscore: the characters of identifiers. -/
def isWordChar (c : Char) : Bool :=
  isAlphabetic c || isNumeric c || c == '_'

/-- The characters that continue a heredoc tag: letters, marks, decimal digits, connectors and the
join controls, all of the 16th edition of the standard. -/
def isTagChar (c : Char) : Bool :=
  isEarlierAlphabetic c || inRanges joiningRanges c.toNat

/-- Whether the character has the property White_Space. -/
def isBlank (c : Char) : Bool :=
  let code := c.toNat
  (9 ≤ code && code ≤ 13) || code == 32 || code == 0x85 || code == 0xA0 || code == 0x1680 ||
    (0x2000 ≤ code && code ≤ 0x200A) || code == 0x2028 || code == 0x2029 || code == 0x202F ||
    code == 0x205F || code == 0x3000

end LexPaint.Unicode
