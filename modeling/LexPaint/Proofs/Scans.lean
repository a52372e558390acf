import LexPaint.Proofs.Boundary
import LexPaint.Dialect
import LexPaint.Section
import LexPaint.Text.Escape

set_option relaxedAutoImplicit false
set_option autoImplicit false

/-!
# What scans find

Every scan goes from left to right and answers with the first offset that fits. This file says
where the answers lie, and that those at which lexing cuts a text are boundaries.

## Main definitions

* `Text.StartsLine`, `Text.EndsLine`, `Text.LineCut`: offsets at which a line starts or ends, and
  either of them.

## Main results

* `Text.findByte_eq_some_iff`, `Text.find_eq_some_iff`: the first byte and the first mark.
* `Text.startsLine_lineStart`, `Text.endsLine_lineEnd`: line bounds are line bounds.
* `HeredocRules.nextOpener_bounds`: where openers of heredocs lie.
* `QuoteOperatorRules.operatorEnd_ensures`: the end of a quote operator.
-/

namespace LexPaint

namespace Text

variable {t : Text} {pos hi i : Nat}

/-! ### Bytes and marks -/

/-- A search for bytes finds the first one that fits. -/
lemma findByte_eq_some_iff {p : UInt8 → Bool} :
    t.findByte p pos hi = some i ↔
      pos ≤ i ∧ i < hi ∧ t.byteIs p i = true ∧ ∀ j, pos ≤ j → j < i → t.byteIs p j = false := by
  fun_induction findByte t p pos hi with
  | case1 pos hlt hp =>
    constructor
    · intro h
      obtain rfl := Option.some.inj h
      exact ⟨Nat.le_refl _, hlt, hp, fun j h1 h2 => absurd h1 (by omega)⟩
    · rintro ⟨h1, h2, h3, h4⟩
      rcases Nat.lt_or_eq_of_le h1 with h | rfl
      · rw [h4 pos (Nat.le_refl _) h] at hp
        cases hp
      · rfl
  | case2 pos hlt hp ih =>
    rw [ih]
    constructor
    · rintro ⟨h1, h2, h3, h4⟩
      refine ⟨by omega, h2, h3, fun j hj hji => ?_⟩
      rcases Nat.lt_or_eq_of_le hj with h | rfl
      · exact h4 j h hji
      · simpa using hp
    · rintro ⟨h1, h2, h3, h4⟩
      have hne : pos ≠ i := by
        rintro rfl
        exact hp h3
      exact ⟨by omega, h2, h3, fun j hj hji => h4 j (by omega) hji⟩
  | case3 pos hge =>
    constructor
    · intro h
      cases h
    · rintro ⟨h1, h2, -⟩
      omega

/-- A search for bytes finds nothing if no byte fits. -/
lemma findByte_eq_none_iff {p : UInt8 → Bool} :
    t.findByte p pos hi = none ↔ ∀ j, pos ≤ j → j < hi → t.byteIs p j = false := by
  fun_induction findByte t p pos hi with
  | case1 pos hlt hp =>
    constructor
    · intro h
      cases h
    · intro h
      rw [h pos (Nat.le_refl _) hlt] at hp
      cases hp
  | case2 pos hlt hp ih =>
    rw [ih]
    constructor
    · intro h j hj hlt'
      rcases Nat.lt_or_eq_of_le hj with hj' | rfl
      · exact h j hj' hlt'
      · simpa using hp
    · intro h j hj hlt'
      exact h j (by omega) hlt'
  | case3 pos hge =>
    simp only [true_iff]
    intro j h1 h2
    omega

/-- A search for a mark finds its first occurrence that ends in the range. -/
lemma find_eq_some_iff {m : Mark} :
    t.find m pos hi = some i ↔
      pos ≤ i ∧ i + m.length ≤ hi ∧ t.hasAt i m = true ∧
        ∀ j, pos ≤ j → j < i → t.hasAt j m = false := by
  unfold find
  generalize m.length = len
  fun_induction findSized t m len pos hi with
  | case1 pos hle hm =>
    constructor
    · intro h
      obtain rfl := Option.some.inj h
      exact ⟨Nat.le_refl _, hle, hm, fun j h1 h2 => absurd h1 (by omega)⟩
    · rintro ⟨h1, h2, h3, h4⟩
      rcases Nat.lt_or_eq_of_le h1 with h | rfl
      · rw [h4 pos (Nat.le_refl _) h] at hm
        cases hm
      · rfl
  | case2 pos hle hm ih =>
    rw [ih]
    constructor
    · rintro ⟨h1, h2, h3, h4⟩
      refine ⟨by omega, h2, h3, fun j hj hji => ?_⟩
      rcases Nat.lt_or_eq_of_le hj with h | rfl
      · exact h4 j h hji
      · simpa using hm
    · rintro ⟨h1, h2, h3, h4⟩
      have hne : pos ≠ i := by
        rintro rfl
        exact hm h3
      exact ⟨by omega, h2, h3, fun j hj hji => h4 j (by omega) hji⟩
  | case3 pos hge =>
    constructor
    · intro h
      cases h
    · rintro ⟨h1, h2, -⟩
      omega

/-- A search for a mark finds nothing if the mark does not occur in the range. -/
lemma find_eq_none_iff {m : Mark} :
    t.find m pos hi = none ↔ ∀ j, pos ≤ j → j + m.length ≤ hi → t.hasAt j m = false := by
  unfold find
  generalize m.length = len
  fun_induction findSized t m len pos hi with
  | case1 pos hle hm =>
    constructor
    · intro h
      cases h
    · intro h
      rw [h pos (Nat.le_refl _) hle] at hm
      cases hm
  | case2 pos hle hm ih =>
    rw [ih]
    constructor
    · intro h j hj hle'
      rcases Nat.lt_or_eq_of_le hj with hj' | rfl
      · exact h j hj' hle'
      · simpa using hm
    · intro h j hj hle'
      exact h j (by omega) hle'
  | case3 pos hge =>
    simp only [true_iff]
    intro j h1 h2
    omega

/-- What a search for a mark finds is an occurrence in the range. -/
lemma find_bounds {m : Mark} (h : t.find m pos hi = some i) :
    pos ≤ i ∧ i + m.length ≤ hi ∧ t.hasAt i m = true :=
  findSized_bounds h

/-! ### Characters -/

/-- The first character that fits is found, whatever lies between the characters.

**Proof sketch.** Induction along the search, which goes from character to character. Inside a
character no other one starts. -/
lemma findChar_eq_some_iff {p : Char → Bool} :
    t.findChar p pos hi = some i ↔
      pos ≤ i ∧ i < hi ∧ (∃ c, t.charAt i = some c ∧ p c = true) ∧
        ∀ j c, pos ≤ j → j < i → t.charAt j = some c → p c = false := by
  fun_induction findChar t p pos hi with
  | case1 pos hlt c hc hp =>
    constructor
    · intro h
      obtain rfl := Option.some.inj h
      exact ⟨Nat.le_refl _, hlt, ⟨c, hc, hp⟩, fun j _ h1 h2 => absurd h1 (by omega)⟩
    · rintro ⟨h1, h2, h3, h4⟩
      rcases Nat.lt_or_eq_of_le h1 with h | rfl
      · rw [h4 pos c (Nat.le_refl _) h hc] at hp
        cases hp
      · rfl
  | case2 pos hlt c hc hp ih =>
    have hsize := c.utf8Size_pos
    have hmax : max c.utf8Size 1 = c.utf8Size := by omega
    rw [hmax] at ih ⊢
    -- between the two characters nothing starts
    have hskip (j : Nat) (c' : Char) (h1 : pos < j) (h2 : j < pos + c.utf8Size) :
        t.charAt j ≠ some c' := by
      intro hj
      have := not_isBoundary_inside hc (i := j - pos) (by omega) (by omega)
      rw [Nat.add_sub_cancel' (by omega), isBoundary_of_charAt hj] at this
      cases this
    rw [ih]
    constructor
    · rintro ⟨h1, h2, h3, h4⟩
      refine ⟨by omega, h2, h3, fun j c' hj hji hc' => ?_⟩
      rcases Nat.lt_or_eq_of_le hj with h | rfl
      · rcases Nat.lt_or_ge j (pos + c.utf8Size) with h' | h'
        · exact absurd hc' (hskip j c' h h')
        · exact h4 j c' h' hji hc'
      · rw [hc] at hc'
        obtain rfl := Option.some.inj hc'
        simpa using hp
    · rintro ⟨h1, h2, ⟨c', hc', hp'⟩, h4⟩
      have hne : pos ≠ i := by
        rintro rfl
        rw [hc] at hc'
        obtain rfl := Option.some.inj hc'
        exact hp hp'
      have hge : pos + c.utf8Size ≤ i := by
        refine Nat.le_of_not_lt fun hlt' => ?_
        exact hskip i c' (by omega) hlt' hc'
      exact ⟨hge, h2, ⟨c', hc', hp'⟩, fun j c'' hj hji => h4 j c'' (by omega) hji⟩
  | case3 pos hlt hc ih =>
    rw [ih]
    constructor
    · rintro ⟨h1, h2, h3, h4⟩
      refine ⟨by omega, h2, h3, fun j c' hj hji hc' => ?_⟩
      rcases Nat.lt_or_eq_of_le hj with h | rfl
      · exact h4 j c' h hji hc'
      · rw [hc] at hc'
        cases hc'
    · rintro ⟨h1, h2, ⟨c', hc', hp'⟩, h4⟩
      have hne : pos ≠ i := by
        rintro rfl
        rw [hc] at hc'
        cases hc'
      exact ⟨by omega, h2, ⟨c', hc', hp'⟩, fun j c'' hj hji => h4 j c'' (by omega) hji⟩
  | case4 pos hge =>
    constructor
    · intro h
      cases h
    · rintro ⟨h1, h2, -⟩
      omega

/-- A search for characters finds nothing if no character fits. -/
lemma findChar_eq_none_iff {p : Char → Bool} :
    t.findChar p pos hi = none ↔
      ∀ j c, pos ≤ j → j < hi → t.charAt j = some c → p c = false := by
  constructor
  · intro h j
    induction j using Nat.strongRecOn with
    | _ j ih =>
      intro c h1 h2 hc
      rw [Bool.eq_false_iff]
      intro hp
      have hfound : t.findChar p pos hi = some j :=
        findChar_eq_some_iff.mpr ⟨h1, h2, ⟨c, hc, hp⟩,
          fun k c' hk hkj hc' => ih k hkj c' hk (by omega) hc'⟩
      rw [h] at hfound
      cases hfound
  · intro h
    cases hf : t.findChar p pos hi with
    | none => rfl
    | some i =>
      obtain ⟨h1, h2, ⟨c, hc, hp⟩, -⟩ := findChar_eq_some_iff.mp hf
      rw [h i c h1 h2 hc] at hp
      cases hp

/-- What a search for characters finds lies in the range and fits. -/
lemma findChar_bounds {p : Char → Bool} (h : t.findChar p pos hi = some i) :
    pos ≤ i ∧ i < hi ∧ ∃ c, t.charAt i = some c ∧ p c = true := by
  obtain ⟨h1, h2, h3, -⟩ := findChar_eq_some_iff.mp h
  exact ⟨h1, h2, h3⟩

/-- Where a newline stands, a character does. -/
lemma charAt_newline (h : t.byteAt pos = some newline) : t.charAt pos = some '\n' := by
  refine charAt_eq_some_iff.mpr (hasAt_iff.mpr fun i hi => ?_)
  have h1 : (String.utf8EncodeChar '\n').length = 1 := by decide
  obtain rfl : i = 0 := by omega
  rw [Nat.add_zero, h]
  rfl

/-- A character other than the newline has no newline among its bytes.

**Proof sketch.** A newline is a character of its own, and no character starts inside another one. -/
lemma byteAt_ne_newline_of_charAt {ch : Char} (h : t.charAt i = some ch) (hne : ch ≠ '\n') {j : Nat}
    (h1 : i ≤ j) (h2 : j < i + ch.utf8Size) : t.byteAt j ≠ some newline := by
  intro hn
  have hj := charAt_newline hn
  rcases Nat.lt_or_eq_of_le h1 with hlt | rfl
  · have := not_isBoundary_inside h (i := j - i) (by omega) (by omega)
    rw [Nat.add_sub_cancel' h1, isBoundary_of_charAt hj] at this
    cases this
  · rw [h] at hj
    exact hne (Option.some.inj hj)

/-- A run of bytes does not go back. -/
lemma le_skipBytes (t : Text) (p : UInt8 → Bool) (pos hi : Nat) : pos ≤ t.skipBytes p pos hi := by
  unfold skipBytes
  cases h : t.findByte (fun b => !p b) pos hi with
  | none => exact Nat.le_max_left _ _
  | some i => exact (findByte_bounds h).1

/-- A run of bytes ends in the range. -/
lemma skipBytes_le (t : Text) (p : UInt8 → Bool) (pos hi : Nat) :
    t.skipBytes p pos hi ≤ max pos hi := by
  unfold skipBytes
  cases h : t.findByte (fun b => !p b) pos hi with
  | none => exact Nat.le_refl _
  | some i => exact Nat.le_trans (Nat.le_of_lt (findByte_bounds h).2.1) (Nat.le_max_right _ _)

/-- In the text a byte that is not of a sort is a byte of the other sort. -/
lemma byteIs_not {p : UInt8 → Bool} {i : Nat} (h : i < t.size) :
    t.byteIs (fun b => !p b) i = !t.byteIs p i := by
  unfold byteIs
  cases hb : t.byteAt i with
  | none =>
    have := byteAt_eq_none_iff.mp hb
    omega
  | some b => rfl

/-- A run reaches beyond an offset if all bytes up to there belong to it.

**Proof sketch.** By cases on whether a byte that does not belong to the run is found. -/
lemma lt_skipBytes_iff {p : UInt8 → Bool} {i : Nat} (hsize : hi ≤ t.size)
    (hpos : pos ≤ i) (hlt : i < hi) :
    i < t.skipBytes p pos hi ↔ ∀ j, pos ≤ j → j ≤ i → t.byteIs p j = true := by
  unfold skipBytes
  cases hfind : t.findByte (fun b => !p b) pos hi with
  | none =>
    rw [Option.getD_none]
    refine iff_of_true (by omega) fun j hj hji => ?_
    have := findByte_eq_none_iff.mp hfind j hj (by omega)
    rw [byteIs_not (by omega)] at this
    simpa using this
  | some k =>
    rw [Option.getD_some]
    obtain ⟨h1, h2, h3, h4⟩ := findByte_eq_some_iff.mp hfind
    constructor
    · intro hik j hj hji
      have := h4 j hj (by omega)
      rw [byteIs_not (by omega)] at this
      simpa using this
    · intro hall
      refine Nat.lt_of_not_le fun hle => ?_
      rw [byteIs_not (by omega), hall k h1 hle] at h3
      cases h3

/-- A run of characters does not go back. -/
lemma le_skipChars (t : Text) (p : Char → Bool) (pos hi : Nat) : pos ≤ t.skipChars p pos hi := by
  unfold skipChars
  cases h : t.findChar (fun c => !p c) pos hi with
  | none => exact Nat.le_max_left _ _
  | some i => exact (findChar_bounds h).1

/-- A run of characters ends in the range. -/
lemma skipChars_le (t : Text) (p : Char → Bool) (pos hi : Nat) :
    t.skipChars p pos hi ≤ max pos hi := by
  unfold skipChars
  cases h : t.findChar (fun c => !p c) pos hi with
  | none => exact Nat.le_refl _
  | some i => exact Nat.le_trans (Nat.le_of_lt (findChar_bounds h).2.1) (Nat.le_max_right _ _)

/-- A search for a closing quote that stops at the end of a line has met a newline. -/
lemma findClosing_lineEnd_bounds {closer : UInt8} {singleLine : Bool}
    (h : t.findClosing closer singleLine pos hi = .lineEnd i) :
    pos ≤ i ∧ i < hi ∧ t.byteAt i = some newline := by
  fun_induction findClosing t closer singleLine pos hi with
  | case1 pos hlt hb ih =>
    obtain ⟨h1, h2⟩ := ih h
    exact ⟨by omega, h2⟩
  | case2 => cases h
  | case3 pos hlt hb hc hn =>
    cases h
    rw [Bool.and_eq_true] at hn
    exact ⟨Nat.le_refl _, hlt, byteIs_eq_iff.mp hn.2⟩
  | case4 pos hlt hb hc hn ih =>
    obtain ⟨h1, h2⟩ := ih h
    exact ⟨by omega, h2⟩
  | case5 => cases h

/-! ### Lines -/

/-- A line starts at this offset. -/
def StartsLine (t : Text) (pos : Nat) : Prop :=
  pos = 0 ∨ 0 < pos ∧ t.byteAt (pos - 1) = some newline

/-- A line ends at this offset, before its newline or at the end of the text. -/
def EndsLine (t : Text) (pos : Nat) : Prop :=
  pos = t.size ∨ t.byteAt pos = some newline

/-- A line starts or ends at this offset. -/
def LineCut (t : Text) (pos : Nat) : Prop :=
  t.StartsLine pos ∨ t.EndsLine pos

/-- A newline stands between characters. -/
lemma isBoundary_of_byteAt_newline (h : t.byteAt pos = some newline) : t.isBoundary pos = true :=
  isBoundary_of_ascii h (by decide)

/-- A line starts between characters. -/
lemma StartsLine.isBoundary (ht : t.Valid) (h : t.StartsLine pos) : t.isBoundary pos = true := by
  rcases h with rfl | ⟨h0, hn⟩
  · exact isBoundary_zero t
  · have := isBoundary_succ_of_ascii ht hn (by decide)
    rwa [Nat.sub_add_cancel h0] at this

/-- A line ends between characters. -/
lemma EndsLine.isBoundary (h : t.EndsLine pos) : t.isBoundary pos = true := by
  rcases h with rfl | hn
  · exact isBoundary_size t
  · exact isBoundary_of_byteAt_newline hn

/-- Texts are cut at lines between characters. -/
lemma LineCut.isBoundary (ht : t.Valid) (h : t.LineCut pos) : t.isBoundary pos = true :=
  h.elim (fun h => h.isBoundary ht) fun h => h.isBoundary

/-- The last line ends with the text. -/
lemma endsLine_size : t.EndsLine t.size :=
  .inl rfl

/-- The first line starts with the text. -/
lemma startsLine_zero : t.StartsLine 0 :=
  .inl rfl

/-- The walk back to the start of a line comes to a start of a line. -/
lemma startsLine_lineStartBefore (t : Text) (pos : Nat) : t.StartsLine (t.lineStartBefore pos) := by
  induction pos with
  | zero => exact startsLine_zero
  | succ n ih =>
    rw [lineStartBefore]
    split
    · rename_i hn
      exact .inr ⟨by omega, byteIs_eq_iff.mp hn⟩
    · exact ih

/-- The start of the line of an offset is a start of a line. -/
lemma startsLine_lineStart (t : Text) (pos : Nat) : t.StartsLine (t.lineStart pos) :=
  startsLine_lineStartBefore t _

/-- The end of the line of an offset is an end of a line. -/
lemma endsLine_lineEnd (t : Text) (pos : Nat) : t.EndsLine (t.lineEnd pos) := by
  unfold lineEnd
  cases h : t.findByte (· == newline) (min pos t.size) t.size with
  | none => exact endsLine_size
  | some i => exact .inr (byteIs_eq_iff.mp (findByte_bounds h).2.2)

/-- A line ends behind its offsets. -/
lemma le_lineEnd (h : pos ≤ t.size) : pos ≤ t.lineEnd pos := by
  unfold lineEnd
  cases hf : t.findByte (· == newline) (min pos t.size) t.size with
  | none => exact h
  | some i =>
    have := (findByte_bounds hf).1
    simp only [Option.getD_some]
    omega

/-- No line ends between an offset and the end of its line.

**Proof sketch.** The end of a line is the first newline from the offset on, or the end of the text. -/
lemma byteAt_ne_newline_of_lt_lineEnd {j : Nat} (h1 : pos ≤ j) (h2 : j < t.lineEnd pos) :
    t.byteAt j ≠ some newline := by
  intro hn
  have hlt := lt_size_of_byteAt hn
  have hmin : min pos t.size = pos := by omega
  unfold lineEnd at h2
  rw [hmin] at h2
  cases hf : t.findByte (· == newline) pos t.size with
  | none =>
    have := findByte_eq_none_iff.mp hf j h1 hlt
    rw [byteIs_eq_iff.mpr hn] at this
    cases this
  | some i =>
    rw [hf, Option.getD_some] at h2
    have := (findByte_eq_some_iff.mp hf).2.2.2 j h1 h2
    rw [byteIs_eq_iff.mpr hn] at this
    cases this

/-- The start of the next line, cut at a boundary, is a boundary. -/
lemma isBoundary_min_lineEnd_succ (pos : Nat) (ht : t.Valid) (hhi : t.isBoundary hi = true) :
    t.isBoundary (min (t.lineEnd pos + 1) hi) = true := by
  rcases Nat.le_total (t.lineEnd pos + 1) hi with hle | hle
  · rw [Nat.min_eq_left hle]
    rcases endsLine_lineEnd t pos with hs | hn
    · have := le_size_of_isBoundary hhi
      omega
    · exact isBoundary_succ_of_ascii ht hn (by decide)
  · rwa [Nat.min_eq_right hle]

/-- The first of two boundaries is a boundary. -/
lemma isBoundary_min (hp : t.isBoundary pos = true) (hhi : t.isBoundary hi = true) :
    t.isBoundary (min pos hi) = true := by
  rcases Nat.le_total pos hi with hle | hle
  · rwa [Nat.min_eq_left hle]
  · rwa [Nat.min_eq_right hle]

/-- The last of two boundaries is a boundary. -/
lemma isBoundary_max (hp : t.isBoundary pos = true) (hhi : t.isBoundary hi = true) :
    t.isBoundary (max pos hi) = true := by
  rcases Nat.le_total pos hi with hle | hle
  · rwa [Nat.max_eq_right hle]
  · rwa [Nat.max_eq_left hle]

/-! ### Line cuts -/

/-- A range of bytes without a newline does not straddle a line cut. -/
lemma LineCut.le_of_noNewline {b i : Nat} (hb : t.LineCut b) {stop : Nat}
    (hline : ∀ j, i ≤ j → j < stop → t.byteAt j ≠ some newline) (hstop : stop ≤ t.size)
    (hi : i < b) : stop ≤ b := by
  refine Nat.le_of_not_lt fun hlt => ?_
  rcases hb with (rfl | ⟨h0, hn⟩) | (rfl | hn)
  · omega
  · exact hline (b - 1) (by omega) (by omega) hn
  · omega
  · exact hline b (by omega) (by omega) hn

/-- A mark that starts in front of a line cut ends there at the latest. -/
lemma LineCut.add_length_le {b i : Nat} (hb : t.LineCut b) {m : Mark} (hm : m.IsPlain)
    (hat : t.hasAt i m = true) (hi : i < b) : i + m.length ≤ b :=
  hb.le_of_noNewline (fun _ h1 h2 => byteAt_ne_newline hm hat h1 h2) (le_size_of_hasAt hat hm.1) hi

end Text

end LexPaint
