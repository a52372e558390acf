import LexPaint.Proofs.Scans

set_option relaxedAutoImplicit false
set_option autoImplicit false

/-!
# Texts inside texts

The text of an embedded section stands in the text of the document. A search that is bounded by the end
of the section finds the same in both, up to the offset of the section. A search that looks back, such as
the one for escapes, does so if the section does not start behind a backslash.

## Main definitions

* `Text.Encloses`: a text stands in another one at an offset.
* `Text.Fences`: a mark does not reach over the end of the inner text.
* `Closing.shift`: where a search for a closing quote stopped, moved by an offset.

## Main results

* `Text.Encloses.findByte_eq`, `Text.Encloses.find_eq`, `Text.Encloses.findClosing_eq`: searches.
* `Text.Encloses.escaped_eq`, `Text.Encloses.lineEnd_eq`, `Text.Encloses.between_eq`: escapes, lines and
  parts.
-/

namespace LexPaint

/-- Whether a mark keeps to one side of every offset where an embedded section may end: it has no `<` or
`?` behind its first byte and no `>` in front of its last one. -/
def Mark.keepsApart (m : Mark) : Bool :=
  m.tail.all (fun b => b != 0x3C && b != 0x3F) && m.dropLast.all (· != 0x3E)

namespace Text

/-- The text `u` stands in the text `t` at an offset, between two boundaries and not behind a
backslash. -/
structure Encloses (t : Text) (lo : Nat) (u : Text) : Prop where
  fits : lo + u.size ≤ t.size
  bytes : ∀ k, k < u.size → t.byteAt (lo + k) = u.byteAt k
  loBoundary : t.isBoundary lo = true
  hiBoundary : t.isBoundary (lo + u.size) = true
  unescaped : 0 < u.size → ∀ i, i + 1 = lo → t.byteIs (· == backslash) i = false

/-- No occurrence of the mark that starts in the inner text ends behind it. -/
def Fences (t : Text) (lo : Nat) (u : Text) (m : Mark) : Prop :=
  ∀ k, k < u.size → t.hasAt (lo + k) m = true → k + m.length ≤ u.size

/-- An offset where a section may end: the end of the text, in front of `<` or `?`, or behind `>`. -/
def SectionEnd (t : Text) (pos : Nat) : Prop :=
  pos = t.size ∨ t.byteIs (fun b => b == 0x3C || b == 0x3F) pos = true ∨
    ∃ i, i + 1 = pos ∧ t.byteIs (· == 0x3E) i = true

/-- A mark of two parts occurs where the one stands behind the other. -/
lemma hasAt_append {t : Text} {pos : Nat} (m m' : Mark) :
    t.hasAt pos (m ++ m') = (t.hasAt pos m && t.hasAt (pos + m.length) m') := by
  induction m generalizing pos with
  | nil => rfl
  | cons b rest ih =>
    rw [List.cons_append, hasAt, hasAt, ih, Bool.and_assoc, List.length_cons,
      show pos + 1 + rest.length = pos + (rest.length + 1) by omega]

/-- A mark that keeps apart does not reach over the end of a section.

**Proof sketch.** A mark that reaches over the end has a byte on either side of it. The end is the
end of the text, or it has `<` or `?` behind it or `>` in front of it, and such a mark has none of
these there. -/
lemma SectionEnd.fences {t u : Text} {lo : Nat} (h : t.SectionEnd (lo + u.size)) {m : Mark}
    (hm : m.keepsApart = true) (hne : m ≠ []) : t.Fences lo u m := by
  intro k hk hat
  refine Nat.le_of_not_lt fun hover => ?_
  have hbyte (i : Nat) (hi : i < m.length) : t.byteAt (lo + k + i) = some m[i] :=
    hasAt_iff.mp hat i hi
  simp only [Mark.keepsApart, Bool.and_eq_true, List.all_eq_true] at hm
  rcases h with hsize | hopens | ⟨i, hi, hcloses⟩
  · have := le_size_of_hasAt hat hne
    omega
  · have hlt : u.size - k < m.length := by omega
    -- the byte behind the end is not the first of the mark
    have hmem : m[u.size - k] ∈ m.tail := by
      obtain ⟨j, hj⟩ : ∃ j, u.size - k = j + 1 := ⟨u.size - k - 1, by omega⟩
      simp only [hj]
      rw [← List.getElem_tail (by simp; omega)]
      exact List.getElem_mem _
    have hat := hbyte (u.size - k) hlt
    rw [show lo + k + (u.size - k) = lo + u.size by omega] at hat
    obtain ⟨b, hb, hopens⟩ := byteIs_iff.mp hopens
    rw [hat] at hb
    cases hb
    obtain ⟨h1, h2⟩ := hm.1 _ hmem
    rw [bne_iff_ne] at h1 h2
    simp only [Bool.or_eq_true, beq_iff_eq] at hopens
    exact hopens.elim h1 h2
  · have hlt : u.size - k - 1 < m.length := by omega
    -- the byte in front of the end is not the last of the mark
    have hmem : m[u.size - k - 1] ∈ m.dropLast := by
      rw [← List.getElem_dropLast (by simp; omega)]
      exact List.getElem_mem _
    have hat := hbyte (u.size - k - 1) hlt
    rw [show lo + k + (u.size - k - 1) = i by omega, byteIs_eq_iff.mp hcloses] at hat
    have := hm.2 _ hmem
    rw [← Option.some.inj hat] at this
    cases this

/-- The part of a text between two boundaries stands in it. -/
lemma encloses_between {t : Text} {lo hi : Nat} (hlo : t.isBoundary lo = true)
    (hhi : t.isBoundary hi = true) (hle : lo ≤ hi)
    (hunescaped : lo < hi → ∀ i, i + 1 = lo → t.byteIs (· == backslash) i = false) :
    t.Encloses lo (t.between lo hi) := by
  have hsize := size_between t lo (le_size_of_isBoundary hhi)
  have hstop : lo + (hi - lo) = hi := by omega
  have := le_size_of_isBoundary hhi
  refine ⟨by omega, fun k hk => ?_, hlo, by rwa [hsize, hstop], fun hpos => hunescaped (by omega)⟩
  rw [byteAt_between, if_pos (by omega)]

namespace Encloses

variable {t u : Text} {lo a b k : Nat}

/-- A test of a byte holds in both texts or in neither. -/
lemma byteIs_eq (h : t.Encloses lo u) (hk : k < u.size) (p : UInt8 → Bool) :
    t.byteIs p (lo + k) = u.byteIs p k :=
  byteIs_congr (h.bytes k hk)

/-- A mark that fits into the inner text occurs in both texts or in neither. -/
lemma hasAt_eq (h : t.Encloses lo u) {m : Mark} (hk : k + m.length ≤ u.size) :
    t.hasAt (lo + k) m = u.hasAt k m := by
  refine hasAt_congr fun i hi => ?_
  rw [Nat.add_assoc]
  exact h.bytes (k + i) (by omega)

/-- A mark that the end of the inner text fences occurs in both texts or in neither. -/
lemma hasAt_eq_of_fences (h : t.Encloses lo u) {m : Mark} (hm : t.Fences lo u m) (hne : m ≠ [])
    (hk : k < u.size) : t.hasAt (lo + k) m = u.hasAt k m := by
  by_cases hfits : k + m.length ≤ u.size
  · exact h.hasAt_eq hfits
  · have hout : t.hasAt (lo + k) m = false :=
      Bool.eq_false_iff.mpr fun hat => hfits (hm k hk hat)
    have hout' : u.hasAt k m = false :=
      Bool.eq_false_iff.mpr fun hat => hfits (le_size_of_hasAt hat hne)
    rw [hout, hout']

/-! ### Boundaries and ranges -/

/-- Boundaries of the inner text are boundaries of the outer one. -/
lemma isBoundary_eq (h : t.Encloses lo u) (hk : k ≤ u.size) :
    t.isBoundary (lo + k) = u.isBoundary k := by
  rcases Nat.eq_zero_or_pos k with rfl | hpos
  · exact h.loBoundary.trans (isBoundary_zero u).symm
  rcases Nat.lt_or_eq_of_le hk with hlt | rfl
  · have hfits := h.fits
    have hzero : (lo + k == 0) = false := by simp; omega
    have hzero' : (k == 0) = false := by simp; omega
    have hsize : (lo + k == t.size) = false := by simp; omega
    have hsize' : (k == u.size) = false := by simp; omega
    rw [isBoundary, isBoundary, hzero, hzero', hsize, hsize', h.byteIs_eq hlt]
  · exact h.hiBoundary.trans (isBoundary_size u).symm

/-- A range of the inner text is accepted in both or in neither. -/
lemma checkRange_eq (h : t.Encloses lo u) (hb : b ≤ u.size) :
    t.checkRange (lo + a) (lo + b) = u.checkRange a b := by
  have hfits := h.fits
  have hrange : (decide (lo + a ≤ lo + b) && decide (lo + b ≤ t.size)) =
      (decide (a ≤ b) && decide (b ≤ u.size)) := by
    rw [Bool.eq_iff_iff]
    simp
    omega
  unfold checkRange
  rw [hrange]
  by_cases hle : a ≤ b
  · rw [h.isBoundary_eq hb, h.isBoundary_eq (Nat.le_trans hle hb)]
  · rw [decide_eq_false hle]
    rfl

/-- A range of bytes of the inner text is accepted in both or in neither. -/
lemma checkBytes_eq (h : t.Encloses lo u) (hb : b ≤ u.size) :
    t.checkBytes (lo + a) (lo + b) = u.checkBytes a b := by
  have hfits := h.fits
  unfold checkBytes
  congr 1
  rw [Bool.eq_iff_iff]
  simp
  omega

/-- Both texts have the same parts. -/
lemma between_eq (h : t.Encloses lo u) (hb : b ≤ u.size) :
    t.between (lo + a) (lo + b) = u.between a b := by
  refine ext_byteAt fun i => ?_
  rw [byteAt_between, byteAt_between, Nat.add_assoc]
  by_cases hi : a + i < b
  · rw [if_pos (by omega), if_pos hi]
    exact h.bytes (a + i) (by omega)
  · rw [if_neg (by omega), if_neg hi]

/-- The same parts can be cut out of both texts. -/
lemma slice_eq (h : t.Encloses lo u) (hb : b ≤ u.size) :
    t.slice (lo + a) (lo + b) = u.slice a b := by
  unfold slice
  rw [h.checkRange_eq hb, h.between_eq hb]

/-! ### Searches -/

/-- A search for a byte finds the same one. -/
lemma findByte_eq (h : t.Encloses lo u) (p : UInt8 → Bool) (hb : b ≤ u.size) :
    t.findByte p (lo + a) (lo + b) = (u.findByte p a b).map (lo + ·) := by
  cases hfind : u.findByte p a b with
  | none =>
    refine findByte_eq_none_iff.mpr fun j hj hjb => ?_
    rw [show j = lo + (j - lo) by omega, h.byteIs_eq (by omega)]
    exact findByte_eq_none_iff.mp hfind (j - lo) (by omega) (by omega)
  | some i =>
    obtain ⟨h1, h2, h3, h4⟩ := findByte_eq_some_iff.mp hfind
    rw [Option.map_some]
    refine findByte_eq_some_iff.mpr ⟨by omega, by omega, ?_, fun j hj hji => ?_⟩
    · rw [h.byteIs_eq (by omega)]
      exact h3
    · rw [show j = lo + (j - lo) by omega, h.byteIs_eq (by omega)]
      exact h4 (j - lo) (by omega) (by omega)

/-- A search for a mark finds the same occurrence. -/
lemma find_eq (h : t.Encloses lo u) (m : Mark) (hb : b ≤ u.size) :
    t.find m (lo + a) (lo + b) = (u.find m a b).map (lo + ·) := by
  cases hfind : u.find m a b with
  | none =>
    refine find_eq_none_iff.mpr fun j hj hjb => ?_
    rw [show j = lo + (j - lo) by omega, h.hasAt_eq (by omega)]
    exact find_eq_none_iff.mp hfind (j - lo) (by omega) (by omega)
  | some i =>
    obtain ⟨h1, h2, h3, h4⟩ := find_eq_some_iff.mp hfind
    rw [Option.map_some]
    refine find_eq_some_iff.mpr ⟨by omega, by omega, ?_, fun j hj hji => ?_⟩
    · rw [h.hasAt_eq (by omega)]
      exact h3
    · rw [show j = lo + (j - lo) by omega, h.hasAt_eq (by omega)]
      exact h4 (j - lo) (by omega) (by omega)

/-! ### Escapes and lines -/

/-- As many backslashes stand in front of an offset in both, since none stands in front of the inner
text. -/
lemma backslashesBefore_eq (h : t.Encloses lo u) (hk : k < u.size) :
    t.backslashesBefore (lo + k) = u.backslashesBefore k := by
  induction k with
  | zero =>
    cases lo with
    | zero => rfl
    | succ lo => simp [backslashesBefore, h.unescaped hk lo rfl]
  | succ k ih =>
    rw [← Nat.add_assoc, backslashesBefore, backslashesBefore, h.byteIs_eq (by omega),
      ih (by omega)]

/-- An offset is escaped in both texts or in neither. -/
lemma escaped_eq (h : t.Encloses lo u) (hk : k < u.size) : t.escaped (lo + k) = u.escaped k := by
  rw [escaped, escaped, h.backslashesBefore_eq hk]

/-- The question whether an offset is escaped has the same answer. -/
lemma isEscaped_eq (h : t.Encloses lo u) (hk : k < u.size) :
    t.isEscaped (lo + k) = u.isEscaped k := by
  have hfits := h.fits
  unfold isEscaped
  rw [checkBytes_eq_ok (Nat.zero_le _) (by omega), checkBytes_eq_ok (Nat.zero_le _) (by omega),
    h.escaped_eq hk]

/-- The end of a line is the same in both texts, where it is cut at the end of the inner one.

**Proof sketch.** The search for the newline finds the same one, if the inner text has one. If it has
none, its line ends with it, and the line of the outer text ends there or behind it. -/
lemma lineEnd_eq (h : t.Encloses lo u) (hk : k ≤ u.size) :
    min (t.lineEnd (lo + k)) (lo + u.size) = lo + u.lineEnd k := by
  have hfits := h.fits
  unfold lineEnd
  rw [Nat.min_eq_left (show lo + k ≤ t.size by omega), Nat.min_eq_left hk]
  cases hfind : u.findByte (· == newline) k u.size with
  | none =>
    refine Nat.min_eq_right ?_
    cases hfind' : t.findByte (· == newline) (lo + k) t.size with
    | none => exact hfits
    | some i =>
      obtain ⟨h1, -, h3⟩ := findByte_bounds hfind'
      refine Nat.le_of_not_lt fun hlt => ?_
      dsimp only [Option.getD_some] at hlt
      have := findByte_eq_none_iff.mp hfind (i - lo) (by omega) (by omega)
      rw [← h.byteIs_eq (by omega), show lo + (i - lo) = i by omega, h3] at this
      cases this
  | some i =>
    obtain ⟨h1, h2, h3, h4⟩ := findByte_eq_some_iff.mp hfind
    have hfind' : t.findByte (· == newline) (lo + k) t.size = some (lo + i) := by
      refine findByte_eq_some_iff.mpr ⟨by omega, by omega, ?_, fun j hj hji => ?_⟩
      · rw [h.byteIs_eq h2]
        exact h3
      · rw [show j = lo + (j - lo) by omega, h.byteIs_eq (by omega)]
        exact h4 (j - lo) (by omega) (by omega)
    rw [hfind']
    simp only [Option.getD_some]
    omega

end Encloses

end Text

/-! ### Closing quotes -/

/-- Where a search for a closing quote stopped, moved by an offset. -/
def Closing.shift (b : Nat) : Closing → Closing
  | found pos => found (b + pos)
  | lineEnd pos => lineEnd (b + pos)
  | unterminated => unterminated

/-- A search for a closing quote stops at the same place of both texts.

**Proof sketch.** Induction along the scan of the inner text. A backslash at its end takes the scan
beyond both ends. -/
lemma Text.Encloses.findClosing_eq {t u : Text} {lo : Nat} (h : t.Encloses lo u) (closer : UInt8)
    (singleLine : Bool) (a : Nat) :
    t.findClosing closer singleLine (lo + a) (lo + u.size) =
      (u.findClosing closer singleLine a u.size).shift lo := by
  fun_induction Text.findClosing u closer singleLine a u.size with
  | case1 a hlt hb ih =>
    rw [findClosing, if_pos (by omega), h.byteIs_eq hlt, if_pos hb, Nat.add_assoc]
    exact ih
  | case2 a hlt hb hc =>
    rw [findClosing, if_pos (by omega), h.byteIs_eq hlt, if_neg hb, h.byteIs_eq hlt, if_pos hc]
    rfl
  | case3 a hlt hb hc hn =>
    rw [findClosing, if_pos (by omega), h.byteIs_eq hlt, if_neg hb, h.byteIs_eq hlt, if_neg hc,
      h.byteIs_eq hlt, if_pos hn]
    rfl
  | case4 a hlt hb hc hn ih =>
    rw [findClosing, if_pos (by omega), h.byteIs_eq hlt, if_neg hb, h.byteIs_eq hlt, if_neg hc,
      h.byteIs_eq hlt, if_neg hn, Nat.add_assoc]
    exact ih
  | case5 a hge =>
    rw [findClosing, if_neg (by omega)]
    rfl

end LexPaint
