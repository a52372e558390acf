import LexPaint.Proofs.Ensures
import LexPaint.Proofs.Escapes
import Mathlib.Data.Nat.Find

set_option relaxedAutoImplicit false
set_option autoImplicit false

/-!
# The first unescaped mark

A closing mark is looked for in two ways. The forward scan steps over every backslash together with the
byte behind it, whatever that byte is, so a step may end inside a character or past the end. The search
takes the occurrences of the mark one after the other and counts the backslashes in front of each. Both
answer with the first unescaped occurrence, and a scan that keeps to its line answers with that or the
first unescaped newline, whichever comes first.

## Main definitions

* `Text.FirstBare`: the first unescaped occurrence of a byte in a range.
* `Closing.Within`: an answer inside the range that was scanned.

## Main results

* `Closing.eq_of_fits`: only one answer fits a range.
* `Text.findClosing_eq_iff`: the forward scan gives the answer that fits.
* `Text.findUnescaped_eq_some_iff`: the search finds the first unescaped occurrence.
* `Text.scans_agree`: the scan and the search agree.
-/

namespace LexPaint

namespace Text

variable {t : Text} {b b' : UInt8} {pos hi i j : Nat}

/-- The first unescaped occurrence of a byte from `pos` on and before `hi`. -/
structure FirstBare (t : Text) (b : UInt8) (pos hi i : Nat) : Prop where
  le : pos ≤ i
  lt : i < hi
  bare : t.Bare [b] i
  free : t.Free [b] pos i

/-- Where an unescaped byte stands, there is a first one that stands no later. -/
lemma exists_firstBare (hle : pos ≤ i) (hlt : i < hi) (hbare : t.Bare [b] i) :
    ∃ j, j ≤ i ∧ t.FirstBare b pos hi j := by
  have hex : ∃ j, pos ≤ j ∧ t.Bare [b] j := ⟨i, hle, hbare⟩
  obtain ⟨hfirst, hat⟩ := Nat.find_spec hex
  have hmin : Nat.find hex ≤ i := Nat.find_min' hex ⟨hle, hbare⟩
  refine ⟨Nat.find hex, hmin, hfirst, by omega, hat, fun k h1 h2 hk => ?_⟩
  exact Nat.find_min hex h2 ⟨h1, hk⟩

/-- A range in front of an offset is free just if the first unescaped occurrence is not in it. -/
lemma free_iff_firstBare (hi' : i ≤ hi) :
    t.Free [b] pos i ↔ ∀ j, t.FirstBare b pos hi j → i ≤ j := by
  constructor
  · intro hfree j hj
    exact Nat.le_of_not_lt fun hlt => hfree j hj.le hlt hj.bare
  · intro h k h1 h2 hbare
    obtain ⟨j, hjk, hj⟩ := exists_firstBare h1 (Nat.lt_of_lt_of_le h2 hi') hbare
    exact absurd (h j hj) (by omega)

/-- One offset holds one byte. -/
lemma Bare.byte_eq (h : t.Bare [b] i) (h' : t.Bare [b'] i) : b = b' :=
  Option.some.inj (h.byteAt.symm.trans h'.byteAt)

/-- Another byte occurs first just if it does not occur up to an offset at which the one stands. -/
lemma Bare.free_iff_forall_lt (hbare : t.Bare [b] i) (hne : b ≠ b') (hlt : i < hi) :
    t.Free [b'] pos i ↔ ∀ j, t.FirstBare b' pos hi j → i < j := by
  rw [free_iff_firstBare (Nat.le_of_lt hlt)]
  refine forall_congr' fun j => imp_congr_right fun hj => ⟨fun hle => ?_, Nat.le_of_lt⟩
  refine Nat.lt_of_le_of_ne hle ?_
  rintro rfl
  exact hne (hbare.byte_eq hj.bare)

end Text

/-! ### The forward scan -/

namespace Closing

variable {t : Text} {closer : UInt8} {singleLine : Bool} {pos hi : Nat} {c c' : Closing}

/-- A mark or a newline that a scan from `pos` up to `hi` has met lies in that range. -/
def Within (pos hi : Nat) : Closing → Prop
  | .found i => pos ≤ i ∧ i < hi
  | .lineEnd i => pos ≤ i ∧ i < hi
  | .unterminated => True

/-- The offset up to which a scan that ended so has met nothing. -/
def reach (hi : Nat) : Closing → Nat
  | .found i => i
  | .lineEnd i => i
  | .unterminated => hi

/-- In front of where a scan has stopped it has met nothing. -/
lemma Fits.unclosed (h : c.Fits t closer singleLine pos hi) :
    t.Unclosed closer singleLine pos (c.reach hi) := by
  cases c with
  | found i => exact h.2
  | lineEnd i => exact h.2.2
  | unterminated => exact h

/-- An answer that stops a scan earlier than another one names a mark in front of the other.

**Proof sketch.** The earlier answer names a mark that stands unescaped in the range, and the later
answer says that none stands there. -/
lemma not_reach_lt (h : c.Fits t closer singleLine pos hi) (hin : c.Within pos hi)
    (h' : c'.Fits t closer singleLine pos hi) (hin' : c'.Within pos hi) :
    ¬ c.reach hi < c'.reach hi := by
  intro hlt
  obtain ⟨hclosed, hline⟩ := h'.unclosed
  cases c with
  | found i => exact hclosed i hin.1 hlt h.1
  | lineEnd i => exact hline h.1 i hin.1 hlt h.2.1
  | unterminated =>
    cases c' with
    | found i => exact absurd hin'.2 (Nat.not_lt_of_lt hlt)
    | lineEnd i => exact absurd hin'.2 (Nat.not_lt_of_lt hlt)
    | unterminated => exact absurd hlt (Nat.lt_irrefl _)

/-- **Only one answer fits a range.** Two answers reach equally far, and what stands there tells them
apart.

**Proof sketch.** By `not_reach_lt` neither answer reaches further than the other. A closing mark is
no newline, and the end of the range is neither, so the offset they reach decides which sort of
answer it is. -/
theorem eq_of_fits (hne : closer ≠ newline) (h : c.Fits t closer singleLine pos hi)
    (hin : c.Within pos hi) (h' : c'.Fits t closer singleLine pos hi) (hin' : c'.Within pos hi) :
    c = c' := by
  have hreach : c.reach hi = c'.reach hi :=
    Nat.le_antisymm (Nat.le_of_not_lt (not_reach_lt h' hin' h hin))
      (Nat.le_of_not_lt (not_reach_lt h hin h' hin'))
  cases c with
  | found i =>
    cases c' with
    | found j => exact congrArg found hreach
    | lineEnd j =>
      obtain rfl : i = j := hreach
      exact absurd (h.1.byte_eq h'.2.1) hne
    | unterminated => exact absurd hreach (Nat.ne_of_lt hin.2)
  | lineEnd i =>
    cases c' with
    | found j =>
      obtain rfl : i = j := hreach
      exact absurd (h'.1.byte_eq h.2.1) hne
    | lineEnd j => exact congrArg lineEnd hreach
    | unterminated => exact absurd hreach (Nat.ne_of_lt hin.2)
  | unterminated =>
    cases c' with
    | found j => exact absurd hreach.symm (Nat.ne_of_lt hin'.2)
    | lineEnd j => exact absurd hreach.symm (Nat.ne_of_lt hin'.2)
    | unterminated => rfl

end Closing

namespace Text

variable {t : Text} {closer : UInt8} {singleLine : Bool} {pos hi i : Nat} {c : Closing}

/-- What the forward scan finds lies in its range. -/
lemma findClosing_within :
    (t.findClosing closer singleLine pos hi).Within pos hi := by
  cases h : t.findClosing closer singleLine pos hi with
  | found i =>
    obtain ⟨hle, hlt, -⟩ := findClosing_found_bounds h
    exact ⟨hle, hlt⟩
  | lineEnd i =>
    obtain ⟨hle, hlt, -⟩ := findClosing_lineEnd_bounds h
    exact ⟨hle, hlt⟩
  | unterminated => trivial

/-- The forward scan gives the answer that fits. -/
theorem findClosing_eq_iff (hclose : closer ≠ backslash) (hline : closer ≠ newline)
    (hesc : t.escaped pos = false) :
    t.findClosing closer singleLine pos hi = c ↔
      c.Fits t closer singleLine pos hi ∧ c.Within pos hi := by
  have hfits : (t.findClosing closer singleLine pos hi).Fits t closer singleLine pos hi :=
    findClosing_fits hclose hesc
  constructor
  · rintro rfl
    exact ⟨hfits, findClosing_within⟩
  · rintro ⟨h, hin⟩
    exact Closing.eq_of_fits hline hfits findClosing_within h hin

/-! ### The search -/

/-- The search finds the first unescaped occurrence.

**Proof sketch.** What the search finds is unescaped, with no such occurrence in front of it
(`free_of_findUnescaped`). A first occurrence is unique, and where one is, the search finds something
(`findUnescaped_eq_none_iff`). -/
theorem findUnescaped_eq_some_iff {b : UInt8} (ht : t.Valid) (hplain : Mark.IsPlain [b])
    (hb : t.isBoundary pos = true) :
    t.findUnescaped [b] pos hi = some i ↔ t.FirstBare b pos hi i := by
  constructor
  · intro h
    obtain ⟨hle, hlt, hat, hesc⟩ := findUnescaped_bounds h
    exact ⟨hle, hlt, ⟨hat, hesc⟩, free_of_findUnescaped h⟩
  · intro h
    cases hfound : t.findUnescaped [b] pos hi with
    | none =>
      exact absurd h.bare ((findUnescaped_eq_none_iff ht hplain hb).mp hfound i h.le h.lt)
    | some j =>
      obtain ⟨hle, -, hat, hesc⟩ := findUnescaped_bounds hfound
      have hfree : t.Free [b] pos j := free_of_findUnescaped hfound
      rcases Nat.lt_trichotomy i j with hlt | rfl | hgt
      · exact absurd h.bare (hfree i h.le hlt)
      · rfl
      · exact absurd ⟨hat, hesc⟩ (h.free j hle hgt)

/-! ### Both -/

/-- **The two ways to look for a closing mark agree.** Start between two characters of a text, at an
offset that is not escaped, and look for an ASCII mark that is no backslash and no newline, in the text
up to any `hi`. The forward scan finds the mark just where the search finds it, and neither finds one just
if there is none. A scan that keeps to its line finds the first unescaped mark if no unescaped newline
comes first, ends at the first unescaped newline if no unescaped mark comes first, and is unterminated
just if there is neither.

**Proof sketch.** The scan answers with the only answer that fits, and what fits is said in terms of the
first unescaped occurrences. -/
theorem scans_agree {t : Text} {closer : UInt8} {pos : Nat} (hi : Nat) (ht : t.Valid)
    (hb : t.isBoundary pos = true) (hesc : t.isEscaped pos = .ok false) (hascii : closer < 0x80)
    (hclose : closer ≠ backslash) (hline : closer ≠ newline) :
    (∀ i, t.findClosing closer false pos hi = .found i ↔ t.findUnescaped [closer] pos hi = some i) ∧
    (t.findClosing closer false pos hi = .unterminated ↔ t.findUnescaped [closer] pos hi = none) ∧
    (∀ i, t.findUnescaped [closer] pos hi = some i ↔ t.FirstBare closer pos hi i) ∧
    (∀ i, t.findClosing closer true pos hi = .found i ↔
      t.FirstBare closer pos hi i ∧ ∀ j, t.FirstBare newline pos hi j → i < j) ∧
    (∀ i, t.findClosing closer true pos hi = .lineEnd i ↔
      t.FirstBare newline pos hi i ∧ ∀ j, t.FirstBare closer pos hi j → i < j) ∧
    (t.findClosing closer true pos hi = .unterminated ↔
      ∀ j, ¬ t.FirstBare closer pos hi j ∧ ¬ t.FirstBare newline pos hi j) := by
  have hparity : t.escaped pos = false := by
    obtain ⟨_, -, h⟩ := bind_eq_ok.mp hesc
    exact Except.ok.inj h
  have hplain : Mark.IsPlain [closer] := ⟨by simp, by simp [hascii, hline]⟩
  -- both scans are characterised by the first unescaped occurrences
  have hscan (singleLine : Bool) (c : Closing) : t.findClosing closer singleLine pos hi = c ↔
      c.Fits t closer singleLine pos hi ∧ c.Within pos hi :=
    findClosing_eq_iff hclose hline hparity
  have hsearch (i : Nat) : t.findUnescaped [closer] pos hi = some i ↔ t.FirstBare closer pos hi i :=
    findUnescaped_eq_some_iff ht hplain hb
  refine ⟨fun i => ?_, ?_, hsearch, fun i => ?_, fun i => ?_, ?_⟩
  · rw [hscan, hsearch]
    constructor
    · rintro ⟨⟨hbare, hfree, -⟩, hle, hlt⟩
      exact ⟨hle, hlt, hbare, hfree⟩
    · rintro ⟨hle, hlt, hbare, hfree⟩
      exact ⟨⟨hbare, hfree, by simp⟩, hle, hlt⟩
  · rw [hscan, findUnescaped_eq_none_iff ht hplain hb]
    constructor
    · rintro ⟨⟨hfree, -⟩, -⟩
      exact hfree
    · intro hfree
      exact ⟨⟨hfree, by simp⟩, trivial⟩
  · rw [hscan]
    constructor
    · rintro ⟨⟨hbare, hfree, hnone⟩, hle, hlt⟩
      exact ⟨⟨hle, hlt, hbare, hfree⟩, (hbare.free_iff_forall_lt hline hlt).mp (hnone rfl)⟩
    · rintro ⟨⟨hle, hlt, hbare, hfree⟩, hnone⟩
      exact ⟨⟨hbare, hfree, fun _ => (hbare.free_iff_forall_lt hline hlt).mpr hnone⟩, hle, hlt⟩
  · rw [hscan]
    constructor
    · rintro ⟨⟨-, hbare, hnone, hfree⟩, hle, hlt⟩
      exact ⟨⟨hle, hlt, hbare, hfree rfl⟩, (hbare.free_iff_forall_lt hline.symm hlt).mp hnone⟩
    · rintro ⟨⟨hle, hlt, hbare, hfree⟩, hnone⟩
      exact ⟨⟨rfl, hbare, (hbare.free_iff_forall_lt hline.symm hlt).mpr hnone, fun _ => hfree⟩, hle, hlt⟩
  · rw [hscan]
    constructor
    · rintro ⟨⟨hfree, hnone⟩, -⟩ j
      exact ⟨fun hj => hfree j hj.le hj.lt hj.bare, fun hj => hnone rfl j hj.le hj.lt hj.bare⟩
    · intro h
      refine ⟨⟨?_, fun _ => ?_⟩, trivial⟩
      · exact (free_iff_firstBare (Nat.le_refl _)).mpr fun j hj => absurd hj (h j).1
      · exact (free_iff_firstBare (Nat.le_refl _)).mpr fun j hj => absurd hj (h j).2

/-- A backslash in front of a mark, one in front of a character of two bytes, and one that ends the text.
The mark that counts is the second one, and behind it the newline comes before the third. -/
theorem scans_agree_umlaut :
    ∃ t : Text, t = Text.ofString "aé\\\"b\\é\"c\n\"\\" ∧ t.size = 14 ∧
      t.isEscaped 1 = .ok false ∧ t.isEscaped 10 = .ok false ∧
      t.findUnescaped [doubleQuote] 1 14 = some 9 ∧
      t.findClosing doubleQuote false 1 14 = .found 9 ∧
      t.FirstBare doubleQuote 1 14 9 ∧
      t.findClosing doubleQuote true 1 14 = .found 9 ∧
      t.FirstBare newline 10 14 11 ∧
      t.findClosing doubleQuote true 10 14 = .lineEnd 11 ∧
      t.findUnescaped [doubleQuote] 13 14 = none ∧
      t.findClosing doubleQuote false 13 14 = .unterminated := by
  let t := Text.ofString "aé\\\"b\\é\"c\n\"\\"
  have ht : t.Valid := Text.valid_ofString _
  have hfront : t.isEscaped 1 = .ok false := by decide +kernel
  have hline : t.isEscaped 10 = .ok false := by decide +kernel
  have hback : t.isEscaped 13 = .ok false := by decide +kernel
  have hfound : t.findClosing doubleQuote false 1 14 = .found 9 := by decide +kernel
  have hfirst : t.findClosing doubleQuote true 1 14 = .found 9 := by decide +kernel
  have hend : t.findClosing doubleQuote true 10 14 = .lineEnd 11 := by decide +kernel
  have hnone : t.findClosing doubleQuote false 13 14 = .unterminated := by decide +kernel
  obtain ⟨hsame, -, -, hmark, -, -⟩ :=
    scans_agree 14 ht (by decide +kernel) hfront (show doubleQuote < 0x80 by decide) (by decide) (by decide)
  obtain ⟨-, -, -, -, hnewline, -⟩ :=
    scans_agree 14 ht (by decide +kernel) hline (show doubleQuote < 0x80 by decide) (by decide) (by decide)
  obtain ⟨-, hmissing, -, -, -, -⟩ :=
    scans_agree 14 ht (by decide +kernel) hback (show doubleQuote < 0x80 by decide) (by decide) (by decide)
  exact ⟨t, rfl, by decide +kernel, hfront, hline, (hsame 9).mp hfound, hfound, ((hmark 9).mp hfirst).1,
    hfirst, ((hnewline 11).mp hend).1, hend, hmissing.mp hnone, hnone⟩

end Text

end LexPaint
