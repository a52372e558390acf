import LexPaint.Notification
import LexPaint.Theme
/-!
# Attributed buffers

A buffer is a text with one style for every byte. Edits move the styles along with their bytes, and
inserted bytes start out plain.

## Main definitions

* `Buffer`: the text and its styles.
* `Buffer.insert`, `Buffer.remove`: the edits, each with its notification.
* `Buffer.paint`, `Buffer.clear`: setting styles.
* `Buffer.runs`, `Buffer.styled`, `Buffer.renderAnsi`: the styles as maximal runs, the texts of one
  style, and the text with terminal colors.
-/

namespace LexPaint

/-- A text with one style for every byte. -/
@[ext]
structure Buffer where
  /-- The text. -/
  text : Text
  /-- The style of each byte. -/
  styles : Array Style
  /-- Every byte has exactly one style. -/
  size_styles : styles.size = text.size
deriving DecidableEq

/-- A range of bytes that share a style. -/
structure StyleRun where
  /-- The first byte. -/
  start : Nat
  /-- The offset just past the last byte. -/
  stop : Nat
  /-- The style of all of them. -/
  style : Style
deriving DecidableEq, Repr, Inhabited

namespace Buffer

/-- A text in plain style. -/
def new (text : Text) : Buffer :=
  ⟨text, Array.replicate text.size .plain, by simp⟩

instance : Inhabited Buffer := ⟨new default⟩

/-- The length in bytes. -/
def size (b : Buffer) : Nat :=
  b.text.size

/-- Whether the text has no bytes. -/
def isEmpty (b : Buffer) : Bool :=
  b.text.isEmpty

/-- The style of a byte, plain past the end. -/
def styleAt (b : Buffer) (pos : Nat) : Style :=
  (b.styles[pos]?).getD .plain

/-! ### Edits -/

/-- The text with another one inserted. -/
def insertText (t : Text) (pos : Nat) (u : Text) : Text :=
  t.between 0 pos ++ u ++ t.between pos t.size

/-- The text without the bytes from `pos` up to `stop`. -/
def removeText (t : Text) (pos stop : Nat) : Text :=
  t.between 0 pos ++ t.between stop t.size

/-- How many bytes of a range lie in the text. -/
theorem size_between (t : Text) (lo hi : Nat) : (t.between lo hi).size = min hi t.size - lo := by
  simp [Text.between, Text.size]

/-- A text grows by what is inserted. -/
theorem size_insertText (t u : Text) {pos : Nat} (h : pos ≤ t.size) :
    (insertText t pos u).size = t.size + u.size := by
  simp only [insertText, Text.size_append, size_between]
  omega

/-- A text shrinks by what is removed. -/
theorem size_removeText (t : Text) {pos stop : Nat} (h : pos ≤ stop) (hs : stop ≤ t.size) :
    (removeText t pos stop).size = t.size - (stop - pos) := by
  simp only [removeText, Text.size_append, size_between]
  omega

/-- Inserts a text at an offset between two characters and reports it. Inserted bytes are plain,
and the styles behind them move along. -/
def insert (b : Buffer) (pos : Nat) (u : Text) : Checked (Buffer × Notification) :=
  if h : b.text.isBoundary pos = true then
    have hpos : pos ≤ b.text.size := Text.le_size_of_isBoundary h
    .ok (⟨insertText b.text pos u,
      b.styles.extract 0 pos ++ Array.replicate u.size .plain ++ b.styles.extract pos b.styles.size,
      by
        have := b.size_styles
        simp only [size_insertText _ _ hpos, Array.size_append, Array.size_extract,
          Array.size_replicate]
        omega⟩,
      .inserted pos u)
  else .error (if pos ≤ b.text.size then .splitsCharacter else .outOfRange)

/-- Removes bytes from an offset on and reports it; both ends must lie between characters. -/
def remove (b : Buffer) (pos length : Nat) : Checked (Buffer × Notification) :=
  if h : b.text.isBoundary pos = true ∧ b.text.isBoundary (pos + length) = true then
    have hs : pos + length ≤ b.text.size := Text.le_size_of_isBoundary h.2
    .ok (⟨removeText b.text pos (pos + length),
      b.styles.extract 0 pos ++ b.styles.extract (pos + length) b.styles.size,
      by
        have := b.size_styles
        simp only [size_removeText _ (Nat.le_add_right pos length) hs, Array.size_append,
          Array.size_extract]
        omega⟩,
      .removed pos length)
  else .error (if pos + length ≤ b.text.size then .splitsCharacter else .outOfRange)

/-! ### Styles -/

/-- Gives a number of entries from an index on one style. -/
def fill (styles : Array Style) (style : Style) (start : Nat) : Nat → Array Style
  | 0 => styles
  | n + 1 => fill (styles.setIfInBounds start style) style (start + 1) n

/-- Filling keeps the number of styles. -/
theorem size_fill (styles : Array Style) (style : Style) (start n : Nat) :
    (fill styles style start n).size = styles.size := by
  induction n generalizing styles start with
  | zero => rfl
  | succ n ih => rw [fill, ih, Array.size_setIfInBounds]

/-- After filling, the range has the new style, and everything else has the one it had. -/
theorem getElem?_fill (styles : Array Style) (style : Style) (start n i : Nat) :
    (fill styles style start n)[i]? =
      if start ≤ i ∧ i < start + n ∧ i < styles.size then some style else styles[i]? := by
  induction n generalizing styles start with
  | zero =>
    rw [fill, if_neg (by omega)]
  | succ n ih =>
    rw [fill, ih, Array.size_setIfInBounds, Array.getElem?_setIfInBounds]
    by_cases hi : start = i
    · subst hi
      rw [if_neg (by omega), if_pos rfl]
      by_cases hs : start < styles.size
      · rw [if_pos hs, if_pos (by omega)]
      · rw [if_neg hs, if_neg (by omega), Array.getElem?_eq_none (by omega)]
    · rw [if_neg hi]
      by_cases h : start + 1 ≤ i ∧ i < start + 1 + n ∧ i < styles.size
      · rw [if_pos h, if_pos (by omega)]
      · rw [if_neg h, if_neg (by omega)]

/-- Gives the bytes from `start` on one style, as far as the text reaches. -/
def paint (b : Buffer) (start length : Nat) (style : Style) : Buffer :=
  let stop := min (start + length) b.styles.size
  ⟨b.text, fill b.styles style start (stop - start), by rw [size_fill, b.size_styles]⟩

/-- Gives bytes the plain style. -/
def clear (b : Buffer) (start length : Nat) : Buffer :=
  b.paint start length .plain

/-- Painting keeps the text. -/
@[simp]
theorem text_paint (b : Buffer) (start length : Nat) (style : Style) :
    (b.paint start length style).text = b.text := rfl

/-- After painting, the bytes of the range have the style, and the others have the one they had. -/
theorem styles_paint (b : Buffer) (start length i : Nat) (style : Style) :
    (b.paint start length style).styles[i]? =
      if start ≤ i ∧ i < start + length ∧ i < b.styles.size then some style
      else b.styles[i]? := by
  simp only [paint, getElem?_fill]
  congr 1
  simp only [eq_iff_iff]
  omega

/-! ### Runs -/

/-- The maximal runs of a list of styles behind a run that is still growing. -/
def runsFrom (start stop : Nat) (style : Style) : List Style → List StyleRun
  | [] => [⟨start, stop, style⟩]
  | s :: rest =>
    if s = style then runsFrom start (stop + 1) style rest
    else ⟨start, stop, style⟩ :: runsFrom stop (stop + 1) s rest

/-- The maximal runs of equal style, in order. -/
def runs (b : Buffer) : List StyleRun :=
  match b.styles.toList with
  | [] => []
  | s :: rest => runsFrom 0 1 s rest

/-- The texts of all runs with a style; no run may cut a character. -/
def styled (b : Buffer) (style : Style) : Checked (List Text) :=
  (b.runs.filter (fun run => run.style == style)).mapM (fun run => b.text.slice run.start run.stop)

/-- One run with terminal colors. Plain text keeps the color of the terminal. -/
def renderRun (theme : Theme) (style : Style) (text : Text) : Text :=
  if style = .plain then text
  else
    Text.ofString ("\x1b[" ++ (theme.color style).ansiCode ++ "m") ++ text ++
      Text.ofString "\x1b[0m"

/-- The text with terminal colors; no run may cut a character. -/
def renderAnsi (b : Buffer) (theme : Theme) : Checked Text :=
  b.runs.foldlM (fun out run => do
    let text ← b.text.slice run.start run.stop
    return out ++ renderRun theme run.style text) ⟨ByteArray.empty⟩

end Buffer

end LexPaint
