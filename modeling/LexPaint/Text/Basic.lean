import LexPaint.Fault
/-!
# Texts and marks

A text is a sequence of UTF-8 bytes, and every position in it is a byte offset. All marks that
lexing looks for are plain byte strings, so most questions are about bytes; characters are
decoded only where a character class is asked for.

## Main definitions

* `Text`: UTF-8 bytes.
* `Text.isBoundary`: whether an offset lies between two characters.
* `Text.slice`: the part of a text between two boundaries.
* `Text.charAt`, `Text.charBefore`: the characters around an offset.
* `Mark`, `Text.hasAt`: a byte string, and whether it occurs at an offset.

## Implementation notes

`Text.ofString` is the only way in from a `String`, whose bytes are valid UTF-8. `Text.Valid`
states that property for texts that operations produce.
-/

namespace LexPaint

/-- A text, held as its UTF-8 bytes and addressed by byte offsets. -/
@[ext]
structure Text where
  /-- The UTF-8 bytes. -/
  bytes : ByteArray
deriving Inhabited

instance : DecidableEq Text := fun t u =>
  match ByteArray.instDecidableEq t.bytes u.bytes with
  | .isTrue h => .isTrue (Text.ext h)
  | .isFalse h => .isFalse fun e => h (congrArg Text.bytes e)

/-- A byte string to look for in a text, such as a quote, a comment mark or a keyword. -/
abbrev Mark : Type := List UInt8

/-- The bytes of a string as a mark. -/
def mark (s : String) : Mark :=
  s.toByteArray.data.toList

namespace Text

/-- The UTF-8 bytes of a string. -/
def ofString (s : String) : Text :=
  ⟨s.toByteArray⟩

/-- Whether the bytes are the UTF-8 form of some characters. -/
def Valid (t : Text) : Prop :=
  t.bytes.IsValidUTF8

/-- The characters of the text, if its bytes are valid UTF-8. -/
def toString? (t : Text) : Option String :=
  String.fromUTF8? t.bytes

/-- The length in bytes. -/
def size (t : Text) : Nat :=
  t.bytes.size

/-- Whether the text has no bytes. -/
def isEmpty (t : Text) : Bool :=
  t.size == 0

/-- The byte at an offset, if the offset lies inside the text. -/
def byteAt (t : Text) (pos : Nat) : Option UInt8 :=
  t.bytes[pos]?

/-- Whether the byte at an offset exists and satisfies `p`. -/
def byteIs (t : Text) (p : UInt8 → Bool) (pos : Nat) : Bool :=
  match t.byteAt pos with
  | some b => p b
  | none => false

/-- Whether a byte continues a character that starts earlier. -/
def isContinuation (b : UInt8) : Bool :=
  b &&& 0xC0 == 0x80

/-- Whether an offset lies between two characters: at either end of the text, or before a byte
that starts a character. -/
def isBoundary (t : Text) (pos : Nat) : Bool :=
  pos == 0 || pos == t.size || t.byteIs (fun b => !isContinuation b) pos

/-- Accepts a range whose ends are in order, inside the text and between characters. -/
def checkRange (t : Text) (lo hi : Nat) : Checked Unit := do
  demand (lo ≤ hi && hi ≤ t.size) .outOfRange
  demand (t.isBoundary lo && t.isBoundary hi) .splitsCharacter

/-- Accepts a range of bytes whose ends are in order and inside the text. -/
def checkBytes (t : Text) (lo hi : Nat) : Checked Unit :=
  demand (lo ≤ hi && hi ≤ t.size) .outOfRange

/-- The bytes from `lo` up to `hi`, without a check. -/
def between (t : Text) (lo hi : Nat) : Text :=
  ⟨t.bytes.extract lo hi⟩

/-- The part of the text from `lo` up to `hi`, which must not cut a character. -/
def slice (t : Text) (lo hi : Nat) : Checked Text := do
  t.checkRange lo hi
  return t.between lo hi

/-- The text followed by another one. -/
def append (t u : Text) : Text :=
  ⟨t.bytes ++ u.bytes⟩

instance : Append Text := ⟨append⟩

/-- The character that starts at an offset; there is none at the end of the text, past it, or
inside a character. -/
def charAt (t : Text) (pos : Nat) : Option Char :=
  if t.isBoundary pos then t.bytes.utf8DecodeChar? pos else none

/-- The last offset before `pos` that starts a character. -/
def prevBoundary (t : Text) : Nat → Nat
  | 0 => 0
  | pos + 1 => if t.isBoundary pos then pos else t.prevBoundary pos

/-- The character that ends at an offset; there is none at the start of the text, past its end,
or inside a character. -/
def charBefore (t : Text) (pos : Nat) : Option Char :=
  if pos == 0 || !t.isBoundary pos then none else t.charAt (t.prevBoundary pos)

/-- The offset just past the character at `pos`, or one byte on where no character starts. -/
def nextBoundary (t : Text) (pos : Nat) : Nat :=
  match t.charAt pos with
  | some c => pos + c.utf8Size
  | none => pos + 1

/-- Whether the mark occurs at an offset. -/
def hasAt (t : Text) (pos : Nat) : Mark → Bool
  | [] => true
  | b :: rest => t.byteIs (· == b) pos && t.hasAt (pos + 1) rest

/-! ### First facts -/

/-- There is no byte at an offset if and only if the text ends there or before. -/
theorem byteAt_eq_none_iff {t : Text} {pos : Nat} : t.byteAt pos = none ↔ t.size ≤ pos := by
  simp [byteAt, size]

/-- A byte that meets a condition is a byte of the text. -/
theorem lt_size_of_byteIs {t : Text} {p : UInt8 → Bool} {pos : Nat} (h : t.byteIs p pos = true) :
    pos < t.size := by
  unfold byteIs at h
  split at h
  · rename_i b hb
    refine Nat.lt_of_not_le fun hge => ?_
    rw [byteAt_eq_none_iff.mpr hge] at hb
    cases hb
  · cases h

/-- The start of a text is a boundary. -/
theorem isBoundary_zero (t : Text) : t.isBoundary 0 = true := by
  simp [isBoundary]

/-- So is its end. -/
theorem isBoundary_size (t : Text) : t.isBoundary t.size = true := by
  simp [isBoundary]

/-- Boundaries do not lie behind the end. -/
theorem le_size_of_isBoundary {t : Text} {pos : Nat} (h : t.isBoundary pos = true) :
    pos ≤ t.size := by
  simp only [isBoundary, Bool.or_eq_true, beq_iff_eq] at h
  rcases h with (h | h) | h
  · omega
  · omega
  · exact Nat.le_of_lt (lt_size_of_byteIs h)

/-- The sizes of two texts add up. -/
theorem size_append (t u : Text) : (t ++ u).size = t.size + u.size := by
  change (t.bytes ++ u.bytes).size = _
  simp [size]

end Text

end LexPaint
