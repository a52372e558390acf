import LexPaint.Text.Search
/-!
# Escapes and closing marks

A byte is escaped when an odd number of backslashes stands directly before it. There are two ways
to look for an unescaped closing mark. A forward scan steps over each backslash together with the
byte after it. A search takes each occurrence in turn and counts the backslashes before it.

## Main definitions

* `Text.escaped`: the parity of the backslashes before an offset; `Text.isEscaped` insists on an
  offset inside the text.
* `Closing`, `Text.findClosing`: the forward scan for a one-byte mark.
* `Text.findUnescaped`: the search for an unescaped occurrence of a mark.
-/

namespace LexPaint

namespace Text

/-- How many backslashes stand directly before an offset. -/
def backslashesBefore (t : Text) : Nat → Nat
  | 0 => 0
  | pos + 1 => if t.byteIs (· == backslash) pos then t.backslashesBefore pos + 1 else 0

/-- Whether an odd number of backslashes stands directly before an offset. -/
def escaped (t : Text) (pos : Nat) : Bool :=
  t.backslashesBefore pos % 2 == 1

/-- Whether the byte at an offset is escaped; the offset must not lie past the end. -/
def isEscaped (t : Text) (pos : Nat) : Checked Bool := do
  t.checkBytes 0 pos
  return t.escaped pos

end Text

/-- Where the search for a closing quote stopped. -/
inductive Closing where
  /-- The closing mark is at this offset. -/
  | found (pos : Nat)
  /-- A search that keeps to its line met the newline at this offset first. -/
  | lineEnd (pos : Nat)
  /-- The range ended first. -/
  | unterminated
deriving DecidableEq, Repr

namespace Text

/-- Scans from `pos` up to `hi` for the one-byte mark, stepping over each backslash together with
the byte after it, and stopping at a newline if the search keeps to its line. -/
def findClosing (t : Text) (closer : UInt8) (singleLine : Bool) (pos hi : Nat) : Closing :=
  if pos < hi then
    if t.byteIs (· == backslash) pos then t.findClosing closer singleLine (pos + 2) hi
    else if t.byteIs (· == closer) pos then .found pos
    else if singleLine && t.byteIs (· == newline) pos then .lineEnd pos
    else t.findClosing closer singleLine (pos + 1) hi
  else .unterminated
termination_by hi - pos

/-- The first unescaped occurrence of the mark from `pos` on that ends by `hi`. After an escaped
occurrence the search goes on one byte further, and it gives up where that byte is inside a
character. -/
def findUnescaped (t : Text) (m : Mark) (pos hi : Nat) : Option Nat :=
  if _h : t.isBoundary pos = true ∧ pos ≤ hi then
    match hi' : t.find m pos hi with
    | none => none
    | some i => if t.escaped i then t.findUnescaped m (i + 1) hi else some i
  else none
termination_by hi + 1 - pos
decreasing_by
  have := (findSized_bounds hi').1
  omega

/-! ### First facts -/

/-- A closing quote that is found stands in the range. -/
theorem findClosing_found_bounds {t : Text} {closer : UInt8} {singleLine : Bool} {pos hi i : Nat}
    (h : t.findClosing closer singleLine pos hi = .found i) :
    pos ≤ i ∧ i < hi ∧ t.byteIs (· == closer) i = true := by
  fun_induction findClosing t closer singleLine pos hi with
  | case1 pos hlt hb ih =>
    obtain ⟨h1, h2, h3⟩ := ih h
    exact ⟨by omega, h2, h3⟩
  | case2 pos hlt hb hc =>
    cases h
    exact ⟨Nat.le_refl _, hlt, hc⟩
  | case3 => cases h
  | case4 pos hlt hb hc hn ih =>
    obtain ⟨h1, h2, h3⟩ := ih h
    exact ⟨by omega, h2, h3⟩
  | case5 => cases h

/-- An unescaped mark that is found occurs in the range, and nothing escapes it. -/
theorem findUnescaped_bounds {t : Text} {m : Mark} {pos hi i : Nat}
    (h : t.findUnescaped m pos hi = some i) :
    pos ≤ i ∧ i + m.length ≤ hi ∧ t.hasAt i m = true ∧ t.escaped i = false := by
  fun_induction findUnescaped t m pos hi with
  | case1 => cases h
  | case2 pos hb i' hf he ih =>
    obtain ⟨h1, h2, h3, h4⟩ := ih h
    have := (findSized_bounds hf).1
    exact ⟨by omega, h2, h3, h4⟩
  | case3 pos hb i' hf he =>
    obtain rfl := Option.some.inj h
    obtain ⟨h1, h2, h3⟩ := findSized_bounds hf
    exact ⟨h1, h2, h3, by simpa using he⟩
  | case4 => cases h

end Text

end LexPaint
