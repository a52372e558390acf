import LexPaint.Text.Search
/-!
# Comment rules

What opens and closes comments and quotes in a language, as data. Some languages give a comment
mark another meaning in certain places: behind a dollar sign `#` asks for the last index of an
array, and before a square bracket it opens an attribute. A mark filter refuses such marks.

## Main definitions

* `MarkFilter`: where a line comment mark does not open a comment.
* `FiltersMarks`: the kinds of filters there are, a `MarkFilter` or any test of an offset.
* `CommentRules`: the marks and quote rules of a language with block comments.
-/

namespace LexPaint

/-- Where a line comment mark does not open a comment. -/
inductive MarkFilter where
  /-- Every mark counts. -/
  | everywhere
  /-- A mark behind a dollar sign does not count. -/
  | notBehindDollar
  /-- A hash sign before an opening square bracket does not count. -/
  | notAttribute
deriving DecidableEq, Repr, Inhabited

namespace MarkFilter

/-- Whether a mark at an offset of the text counts. -/
def admits (f : MarkFilter) (t : Text) (pos : Nat) : Bool :=
  match f with
  | everywhere => true
  | notBehindDollar => !(0 < pos && t.byteIs (· == 0x24) (pos - 1))
  | notAttribute => !t.hasAt pos [0x23, 0x5B]

/-- Whether a mark at an offset counts, where the offset must be one that the filter can look
at: the byte before it has to exist, or a character has to start at it. -/
def admits? (f : MarkFilter) (t : Text) (pos : Nat) : Checked Bool := do
  match f with
  | everywhere => pure ()
  | notBehindDollar => t.checkBytes 0 pos
  | notAttribute => t.checkRange pos t.size
  return f.admits t pos

end MarkFilter

/-- A kind of filters for line comment marks. -/
class FiltersMarks (φ : Type) where
  /-- Whether a mark at an offset of the text counts. -/
  admits : φ → Text → Nat → Bool

instance : FiltersMarks MarkFilter := ⟨MarkFilter.admits⟩

instance : FiltersMarks (Text → Nat → Bool) := ⟨id⟩

/-- A filter of a profile admits a mark as the profile says. -/
@[simp] theorem FiltersMarks.admits_markFilter (f : MarkFilter) :
    FiltersMarks.admits f = f.admits := rfl

/-- The comments and quotes of a language, as far as block comments depend on them. The filter of
its line comment marks is a `MarkFilter` in all dialects. -/
structure CommentRules (φ : Type := MarkFilter) where
  /-- The marks that open a line comment; of two that fit, the first counts. -/
  lineMarks : List Mark
  /-- Opens a block comment. -/
  opener : Mark
  /-- Closes a block comment. -/
  closer : Mark
  /-- Whether an unclosed quote goes on in the next line. -/
  multilineQuotes : Bool
  /-- Whether tripled quotes open a block that ends at the next triple. -/
  textBlocks : Bool
  /-- Where a line comment mark does not open a comment. -/
  lineFilter : φ
deriving DecidableEq, Repr, Inhabited

end LexPaint
