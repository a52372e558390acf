import LexPaint.Proofs.QuoteScans
import Mathlib.Order.Bounds.Basic

set_option relaxedAutoImplicit false
set_option autoImplicit false

/-!
# Marks and quotes on a line

Two scans over a line keep track of its quotes. One tells whether an offset is quoted. The other looks for
the first accepted mark in front of an offset and passes over quoted ones. Neither asks the other, and
they treat escapes in different ways: a scan may step over the very offset that the other one is asked
about. Both agree nevertheless. An offset that a scan steps over lies behind a backslash in a quote, so it
counts as quoted, and no mark is looked for there.

## Main definitions

* `Text.IsLineMark`: an accepted mark in front of an offset on its line that is not quoted there.

## Main results

* `Text.firstMark_eq_some_iff`, `Text.firstMark_eq_none_iff`: the search from any point of a line.
* `Text.behindMarkOnLine_iff`: the search finds the first mark that is not quoted.
-/

namespace LexPaint

namespace Text

variable {t : Text} {marks : List Mark} {accept : Nat → Bool} {pos i m : Nat} {quote : Option UInt8}

/-! ### From any point of a line -/

/-- In front of the first mark there is none.

**Proof sketch.** Induction along the search, which goes the same way as far as the mark. -/
lemma firstMark_eq_none_of_eq_some (h : t.firstMark marks accept pos i quote = some m) :
    t.firstMark marks accept m i quote = none := by
  fun_induction firstMark t marks accept pos i quote with
  | case1 i hlt q hb ih =>
    rw [firstMark]
    split
    · simpa [hb] using ih h
    · rfl
  | case2 i hlt q hb hq ih =>
    rw [firstMark]
    split
    · simpa [hb, hq] using ih h
    · rfl
  | case3 i hlt q hb hq ih =>
    rw [firstMark]
    split
    · simpa [hb, hq] using ih h
    · rfl
  | case4 i hlt hq ih =>
    rw [firstMark]
    split
    · simpa [hq] using ih h
    · rfl
  | case5 i hlt hq hmark =>
    obtain rfl := Option.some.inj h
    rw [firstMark, if_neg (Nat.lt_irrefl _)]
  | case6 i hlt hq hmark ih =>
    rw [firstMark]
    split
    · simpa [hq, hmark] using ih h
    · rfl
  | case7 => cases h

/-- An accepted mark from `i` on and before `pos` that is not quoted, when `quote` is open at `i`. -/
structure IsUnquoted (t : Text) (marks : List Mark) (accept : Nat → Bool) (pos i : Nat)
    (quote : Option UInt8) (m : Nat) : Prop where
  le : i ≤ m
  lt : m < pos
  occurs : marks.any (t.hasAt m) = true
  accepted : accept m = true
  unquoted : t.openQuote m i quote = none

variable (hmarks : ∀ mark ∈ marks, ∀ p, t.hasAt p mark = true → t.byteIs isQuote p = false)
include hmarks

/-- Nothing is found if every accepted mark is quoted. -/
lemma firstMark_eq_none_iff : t.firstMark marks accept pos i quote = none ↔
    ∀ m, ¬ t.IsUnquoted marks accept pos i quote m := by
  constructor
  · intro h m hm
    have hquoted := isSome_openQuote_of_firstMark hmarks h hm.le hm.lt hm.occurs hm.accepted
    rw [hm.unquoted] at hquoted
    cases hquoted
  · intro h
    cases hfirst : t.firstMark marks accept pos i quote with
    | none => rfl
    | some m =>
      obtain ⟨h1, h2, h3, h4, h5⟩ := firstMark_eq_some hfirst
      exact absurd ⟨h1, h2, h3, h4, h5⟩ (h m)

/-- What is found is the first accepted mark that is not quoted. -/
lemma isLeast_of_firstMark (h : t.firstMark marks accept pos i quote = some m) :
    IsLeast {m | t.IsUnquoted marks accept pos i quote m} m := by
  obtain ⟨h1, h2, h3, h4, h5⟩ := firstMark_eq_some h
  refine ⟨⟨h1, h2, h3, h4, h5⟩, fun j hj => Nat.le_of_not_lt fun hlt => ?_⟩
  have hnone := firstMark_eq_none_of_eq_some h
  exact (firstMark_eq_none_iff hmarks).mp hnone j { hj with lt := hlt }

/-- The search finds the first accepted mark that is not quoted. -/
lemma firstMark_eq_some_iff : t.firstMark marks accept pos i quote = some m ↔
    IsLeast {m | t.IsUnquoted marks accept pos i quote m} m := by
  refine ⟨isLeast_of_firstMark hmarks, fun hleast => ?_⟩
  cases hfirst : t.firstMark marks accept pos i quote with
  | none => exact absurd hleast.1 ((firstMark_eq_none_iff hmarks).mp hfirst m)
  | some n => rw [(isLeast_of_firstMark hmarks hfirst).unique hleast]

omit hmarks

/-! ### From the start of a line -/

/-- An accepted mark that starts on the line of an offset and in front of it, and that is not quoted on its
line. -/
structure IsLineMark (t : Text) (marks : List Mark) (accept : Nat → Bool) (pos m : Nat) : Prop where
  lineStart_le : t.lineStart pos ≤ m
  lt : m < pos
  occurs : ∃ mark ∈ marks, t.hasAt m mark = true
  accepted : accept m = true
  unquoted : t.inQuotesOnLine m = false

/-- Whether an offset is quoted is asked from the start of the line of any offset behind it. -/
lemma inQuotesOnLine_eq (hpos : pos ≤ t.size) (hle : t.lineStart pos ≤ m) (hlt : m < pos) :
    t.inQuotesOnLine m = (t.openQuote m (t.lineStart pos) none).isSome := by
  have hline : t.lineStart pos = t.lineStart m :=
    lineStart_eq_of_noNewline (Nat.le_of_lt hlt) hpos fun j h1 h2 =>
      byteAt_ne_newline_of_lineStart_le hpos (Nat.le_trans hle h1) h2
  unfold inQuotesOnLine
  rw [Nat.min_eq_left (by omega), hline]

/-- The marks that the search from the start of a line looks for.

**Proof sketch.** The offset and the marks in front of it have the start of their line in common. A
mark that occurs in front of the end of the text is not cut off. -/
lemma isUnquoted_iff_isLineMark (hne : ∀ mark ∈ marks, mark ≠ []) :
    t.IsUnquoted marks accept (min pos t.size) (t.lineStart (min pos t.size)) none m ↔
      t.IsLineMark marks accept pos m := by
  have hline : t.lineStart (min pos t.size) = t.lineStart pos := by
    simp [lineStart]
  have hquoted (h1 : t.lineStart (min pos t.size) ≤ m) (h2 : m < min pos t.size) :
      t.openQuote m (t.lineStart (min pos t.size)) none = none ↔ t.inQuotesOnLine m = false := by
    rw [inQuotesOnLine_eq (Nat.min_le_right _ _) h1 h2, Option.isSome_eq_false_iff,
      Option.isNone_iff_eq_none]
  constructor
  · rintro ⟨h1, h2, h3, h4, h5⟩
    exact ⟨hline ▸ h1, by omega, List.any_eq_true.mp h3, h4, (hquoted h1 h2).mp h5⟩
  · rintro ⟨h1, h2, ⟨mark, hmem, hat⟩, h4, h5⟩
    have hin : m < t.size := by
      have := le_size_of_hasAt hat (hne mark hmem)
      have := List.length_pos_iff.mpr (hne mark hmem)
      omega
    have hlt : m < min pos t.size := by omega
    rw [← hline] at h1
    exact ⟨h1, hlt, List.any_eq_true.mpr ⟨mark, hmem, hat⟩, h4, (hquoted h1 hlt).mpr h5⟩

/-- **The two scans of a line agree on what is quoted.** No mark is empty or starts with a quote. The search
for a mark in front of an offset finds the least offset of its line at which a mark occurs, is accepted,
and is not quoted, and it finds nothing just if there is no such offset.

**Proof sketch.** By the two characterisations of the search, asked from the start of the line. -/
theorem behindMarkOnLine_iff (t : Text) (pos : Nat) (accept : Nat → Bool)
    (hmarks : ∀ mark ∈ marks, ∃ b rest, mark = b :: rest ∧ isQuote b = false) :
    (∀ i, t.behindMarkOnLine pos marks accept = some i ↔
      IsLeast {i | t.IsLineMark marks accept pos i} i) ∧
    (t.behindMarkOnLine pos marks accept = none ↔ ∀ i, ¬ t.IsLineMark marks accept pos i) := by
  have hne : ∀ mark ∈ marks, mark ≠ [] := by
    intro mark hmem
    obtain ⟨b, rest, rfl, -⟩ := hmarks mark hmem
    exact List.cons_ne_nil b rest
  have hquote : ∀ mark ∈ marks, ∀ p, t.hasAt p mark = true → t.byteIs isQuote p = false := by
    intro mark hmem p hat
    obtain ⟨b, rest, rfl, hb⟩ := hmarks mark hmem
    have hbyte : t.byteAt p = some b := hasAt_iff.mp hat 0 (Nat.succ_pos _)
    simp [byteIs, hbyte, hb]
  simp only [← isUnquoted_iff_isLineMark hne]
  exact ⟨fun i => firstMark_eq_some_iff hquote, firstMark_eq_none_iff hquote⟩

/-- In the quotes stand two marks, one of which belongs to an escape that both scans step over. The next mark
is refused, and the mark of the line before does not count. -/
theorem behindMarkOnLine_iff_escapes :
    let t := Text.ofString "#\n'\\#\\'#' $# # b"
    let accept := fun i => i != 11
    (∀ m ∈ [mark "#"], ∃ b rest, m = b :: rest ∧ isQuote b = false) ∧
      t.behindMarkOnLine 15 [mark "#"] accept = some 13 ∧
      IsLeast {i | t.IsLineMark [mark "#"] accept 15 i} 13 ∧
      t.behindMarkOnLine 13 [mark "#"] accept = none ∧
      ∀ i, ¬ t.IsLineMark [mark "#"] accept 13 i := by
  intro t accept
  have hmarks : ∀ m ∈ [mark "#"], ∃ b rest, m = b :: rest ∧ isQuote b = false :=
    List.forall_mem_singleton.mpr ⟨0x23, [], by decide +kernel, by decide⟩
  have hsome : t.behindMarkOnLine 15 [mark "#"] accept = some 13 := by decide +kernel
  have hnone : t.behindMarkOnLine 13 [mark "#"] accept = none := by decide +kernel
  exact ⟨hmarks, hsome, ((behindMarkOnLine_iff t 15 accept hmarks).1 13).mp hsome, hnone,
    (behindMarkOnLine_iff t 13 accept hmarks).2.mp hnone⟩

end Text

end LexPaint
