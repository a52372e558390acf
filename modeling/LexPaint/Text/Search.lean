import LexPaint.Text.Basic
import LexPaint.Unicode.Class
/-!
# Searching a text

Left-to-right searches over a range of a text, each answering with the least offset that fits.
Line bounds are searches for the newline byte, to the left for the start of a line and to the
right for its end.

## Main definitions

* `Text.findByte`: the next byte that satisfies a predicate.
* `Text.find`: the next occurrence of a mark that ends by the end of the range.
* `Text.findChar`: the next character that satisfies a predicate.
* `Text.lineStart`, `Text.lineEnd`: the bounds of the line around an offset.
* `Text.skipBlanks`: the end of a run of white space.
-/

namespace LexPaint

/-- The newline byte. -/
def newline : UInt8 := 0x0A

/-- The backslash, which escapes the byte after it. -/
def backslash : UInt8 := 0x5C

/-- The double quote. -/
def doubleQuote : UInt8 := 0x22

/-- The single quote. -/
def singleQuote : UInt8 := 0x27

/-- Whether a byte is one of the two quotes. -/
def isQuote (b : UInt8) : Bool :=
  b == doubleQuote || b == singleQuote

namespace Text

/-- The first offset from `pos` on and before `hi` whose byte satisfies `p`. -/
def findByte (t : Text) (p : UInt8 → Bool) (pos hi : Nat) : Option Nat :=
  if pos < hi then
    if t.byteIs p pos then some pos else t.findByte p (pos + 1) hi
  else none
termination_by hi - pos

/-- The first offset from `pos` on at which the mark of the given length occurs and ends by `hi`. -/
def findSized (t : Text) (m : Mark) (len pos hi : Nat) : Option Nat :=
  if pos + len ≤ hi then
    if t.hasAt pos m then some pos else t.findSized m len (pos + 1) hi
  else none
termination_by hi + 1 - pos

/-- The first offset from `pos` on at which the mark occurs and ends by `hi`. -/
def find (t : Text) (m : Mark) (pos hi : Nat) : Option Nat :=
  t.findSized m m.length pos hi

/-- The first offset from `pos` on and before `hi` that starts a character satisfying `p`. -/
def findChar (t : Text) (p : Char → Bool) (pos hi : Nat) : Option Nat :=
  if pos < hi then
    match t.charAt pos with
    | some c => if p c then some pos else t.findChar p (pos + max c.utf8Size 1) hi
    | none => t.findChar p (pos + 1) hi
  else none
termination_by hi - pos

/-- The end of the run of bytes satisfying `p` that starts at `pos`, cut at `hi`. -/
def skipBytes (t : Text) (p : UInt8 → Bool) (pos hi : Nat) : Nat :=
  (t.findByte (fun b => !p b) pos hi).getD (max pos hi)

/-- The end of the run of characters satisfying `p` that starts at `pos`, cut at `hi`. -/
def skipChars (t : Text) (p : Char → Bool) (pos hi : Nat) : Nat :=
  (t.findChar (fun c => !p c) pos hi).getD (max pos hi)

/-- The end of the run of white space that starts at `pos`, cut at `hi`. -/
def skipBlanks (t : Text) (pos hi : Nat) : Nat :=
  t.skipChars Unicode.isBlank pos hi

/-- The offset just past the last newline before `pos`, where `pos` is inside the text. -/
def lineStartBefore (t : Text) : Nat → Nat
  | 0 => 0
  | pos + 1 => if t.byteIs (· == newline) pos then pos + 1 else t.lineStartBefore pos

/-- The start of the line that contains `pos`; past the end, of the last line. -/
def lineStart (t : Text) (pos : Nat) : Nat :=
  t.lineStartBefore (min pos t.size)

/-- The offset of the newline that ends the line containing `pos`, or the length of the text. -/
def lineEnd (t : Text) (pos : Nat) : Nat :=
  (t.findByte (· == newline) (min pos t.size) t.size).getD t.size

/-! ### First facts -/

/-- A byte that is found stands in the range and is one of those looked for. -/
theorem findByte_bounds {t : Text} {p : UInt8 → Bool} {pos hi i : Nat}
    (h : t.findByte p pos hi = some i) : pos ≤ i ∧ i < hi ∧ t.byteIs p i = true := by
  fun_induction findByte t p pos hi with
  | case1 pos hlt hp =>
    obtain rfl := Option.some.inj h
    exact ⟨Nat.le_refl _, hlt, hp⟩
  | case2 pos hlt hp ih =>
    obtain ⟨h1, h2, h3⟩ := ih h
    exact ⟨by omega, h2, h3⟩
  | case3 => cases h

/-- A mark that is found occurs in the range. -/
theorem findSized_bounds {t : Text} {m : Mark} {len pos hi i : Nat}
    (h : t.findSized m len pos hi = some i) :
    pos ≤ i ∧ i + len ≤ hi ∧ t.hasAt i m = true := by
  fun_induction findSized t m len pos hi with
  | case1 pos hle hm =>
    obtain rfl := Option.some.inj h
    exact ⟨Nat.le_refl _, hle, hm⟩
  | case2 pos hle hm ih =>
    obtain ⟨h1, h2, h3⟩ := ih h
    exact ⟨by omega, h2, h3⟩
  | case3 => cases h

/-- The last start of a line up to an offset does not lie behind it. -/
theorem lineStartBefore_le (t : Text) (pos : Nat) : t.lineStartBefore pos ≤ pos := by
  induction pos with
  | zero => simp [lineStartBefore]
  | succ n ih =>
    simp only [lineStartBefore]
    split
    · exact Nat.le_refl _
    · omega

/-- The line that contains an offset does not start behind it. -/
theorem lineStart_le (t : Text) (pos : Nat) : t.lineStart pos ≤ pos :=
  Nat.le_trans (lineStartBefore_le t _) (Nat.min_le_left _ _)

/-- Lines end within the text. -/
theorem lineEnd_le_size (t : Text) (pos : Nat) : t.lineEnd pos ≤ t.size := by
  unfold lineEnd
  cases h : t.findByte (· == newline) (min pos t.size) t.size with
  | none => exact Nat.le_refl _
  | some i => exact Nat.le_of_lt (findByte_bounds h).2.1

end Text

end LexPaint
