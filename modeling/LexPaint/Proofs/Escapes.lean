import LexPaint.Proofs.Scans

set_option relaxedAutoImplicit false
set_option autoImplicit false

/-!
# Unescaped marks

A mark counts where it is not escaped. The two ways to look for one are a forward scan, which steps over
a backslash together with the byte behind it, and a search, which counts the backslashes in front of each
occurrence. Both find the first unescaped mark. The scan counts right as long as it starts at an offset
that is not escaped itself: from there on it meets every backslash that is not escaped, and no other.

## Main definitions

* `Text.Bare`: an unescaped occurrence of a mark.
* `Text.Free`: a range in which no unescaped occurrence starts.
* `Closing.Fits`: what the answer of the forward scan says.

## Main results

* `Text.findClosing_fits`: the forward scan finds the first unescaped closing mark, or newline.
* `Text.free_of_findUnescaped`, `Text.findUnescaped_eq_none_iff`: so does the search.
-/

namespace LexPaint

namespace Text

variable {t : Text} {m : Mark} {pos hi lo mid i : Nat}

/-- A backslash that is not escaped escapes the next byte. -/
lemma escaped_succ (hbyte : t.byteIs (· == backslash) pos = true) :
    t.escaped (pos + 1) = !t.escaped pos := by
  simp only [escaped, backslashesBefore, if_pos hbyte]
  rcases Nat.mod_two_eq_zero_or_one (t.backslashesBefore pos) with h | h <;>
    simp [h, Nat.add_mod]

/-- Only a backslash escapes the next byte. -/
lemma escaped_succ_of_not (hbyte : t.byteIs (· == backslash) pos = false) :
    t.escaped (pos + 1) = false := by
  simp [escaped, backslashesBefore, hbyte]

/-- The mark occurs at an offset and is not escaped there. -/
def Bare (t : Text) (m : Mark) (pos : Nat) : Prop :=
  t.hasAt pos m = true ∧ t.escaped pos = false

instance (t : Text) (m : Mark) (pos : Nat) : Decidable (t.Bare m pos) :=
  inferInstanceAs (Decidable (_ ∧ _))

/-- No unescaped occurrence of the mark starts in a range. -/
def Free (t : Text) (m : Mark) (lo hi : Nat) : Prop :=
  ∀ i, lo ≤ i → i < hi → ¬ t.Bare m i

/-- For a mark of one byte the byte itself decides. -/
lemma bare_byte_iff {b : UInt8} :
    t.Bare [b] pos ↔ t.byteAt pos = some b ∧ t.escaped pos = false := by
  simp [Bare, hasAt, byteIs_eq_iff]

/-- Where a mark of one byte occurs, its byte stands. -/
lemma Bare.byteAt {b : UInt8} (h : t.Bare [b] pos) : t.byteAt pos = some b :=
  (bare_byte_iff.mp h).1

/-- Where a mark does not occur, it does not occur unescaped. -/
lemma not_bare_of_hasAt (h : t.hasAt pos m = false) : ¬ t.Bare m pos :=
  fun hbare => Bool.false_ne_true (h.symm.trans hbare.1)

/-- No mark occurs unescaped at an escaped offset. -/
lemma not_bare_of_escaped (h : t.escaped pos = true) : ¬ t.Bare m pos :=
  fun hbare => Bool.false_ne_true (hbare.2.symm.trans h)

/-- A part of a free range is free. -/
lemma Free.mono {lo' hi' : Nat} (h : t.Free m lo hi) (hlo : lo ≤ lo') (hhi : hi' ≤ hi) :
    t.Free m lo' hi' :=
  fun i h1 h2 => h i (Nat.le_trans hlo h1) (Nat.lt_of_lt_of_le h2 hhi)

/-- Two free ranges side by side make a free one. -/
lemma Free.trans (h : t.Free m lo mid) (h' : t.Free m mid hi) : t.Free m lo hi := by
  intro i h1 h2
  rcases Nat.lt_or_ge i mid with hlt | hge
  · exact h i h1 hlt
  · exact h' i hge h2

/-- An empty range is free. -/
lemma free_self (t : Text) (m : Mark) (pos : Nat) : t.Free m pos pos :=
  fun _ h1 h2 => absurd h1 (Nat.not_le_of_lt h2)

/-- One offset at which the mark does not stand unescaped makes a free range. -/
lemma free_succ (h : ¬ t.Bare m pos) : t.Free m pos (pos + 1) := by
  intro i h1 h2
  obtain rfl : i = pos := by omega
  exact h

/-! ### The forward scan -/

/-- Neither the closing byte nor, for a search that keeps to its line, a newline stands unescaped in a
range. -/
def Unclosed (t : Text) (closer : UInt8) (singleLine : Bool) (lo hi : Nat) : Prop :=
  t.Free [closer] lo hi ∧ (singleLine = true → t.Free [newline] lo hi)

variable {closer : UInt8} {singleLine : Bool}

/-- Two ranges without a closing mark make one. -/
lemma Unclosed.trans (h : t.Unclosed closer singleLine lo mid)
    (h' : t.Unclosed closer singleLine mid hi) : t.Unclosed closer singleLine lo hi :=
  ⟨h.1.trans h'.1, fun hline => (h.2 hline).trans (h'.2 hline)⟩

/-- An empty range has no closing mark. -/
lemma unclosed_self (t : Text) (closer : UInt8) (singleLine : Bool) (pos : Nat) :
    t.Unclosed closer singleLine pos pos :=
  ⟨t.free_self _ pos, fun _ => t.free_self _ pos⟩

/-- A backslash hides the byte behind it, and is neither of the marks itself.

**Proof sketch.** The backslash is not escaped, so the byte behind it is, and neither can be an
unescaped mark. If that byte is a backslash, it escapes nothing in turn. -/
lemma unclosed_escape (hcloser : closer ≠ backslash) (hesc : t.escaped pos = false)
    (hbyte : t.byteIs (· == backslash) pos = true) :
    t.Unclosed closer singleLine pos (pos + 2) ∧ t.escaped (pos + 2) = false := by
  have hat := byteIs_eq_iff.mp hbyte
  have hnext : t.escaped (pos + 1) = true := by
    rw [escaped_succ hbyte, hesc]
    rfl
  have hfree {b : UInt8} (hb : b ≠ backslash) : t.Free [b] pos (pos + 2) := by
    refine (free_succ fun hbare => ?_).trans (free_succ (not_bare_of_escaped hnext))
    exact hb (Option.some.inj (hbare.byteAt.symm.trans hat))
  refine ⟨⟨hfree hcloser, fun _ => hfree (by decide)⟩, ?_⟩
  cases hsecond : t.byteIs (· == backslash) (pos + 1) with
  | true =>
    rw [escaped_succ hsecond, hnext]
    rfl
  | false => exact escaped_succ_of_not hsecond

end Text

/-- What the answer of a scan from `pos` up to `hi` says: a closing mark or a newline stands unescaped
where the scan has stopped, and none stands in front of it. -/
def Closing.Fits (t : Text) (closer : UInt8) (singleLine : Bool) (pos hi : Nat) : Closing → Prop
  | .found i => t.Bare [closer] i ∧ t.Unclosed closer singleLine pos i
  | .lineEnd i => singleLine = true ∧ t.Bare [newline] i ∧ t.Unclosed closer singleLine pos i
  | .unterminated => t.Unclosed closer singleLine pos hi

namespace Text

variable {t : Text} {m : Mark} {pos hi lo mid i : Nat} {closer : UInt8} {singleLine : Bool}

/-- A scan may pass over what holds no mark. -/
lemma Unclosed.fits {closing : Closing} (h : t.Unclosed closer singleLine pos mid)
    (hfits : closing.Fits t closer singleLine mid hi) :
    closing.Fits t closer singleLine pos hi := by
  cases closing with
  | found i => exact ⟨hfits.1, h.trans hfits.2⟩
  | lineEnd i => exact ⟨hfits.1, hfits.2.1, h.trans hfits.2.2⟩
  | unterminated => exact h.trans hfits

/-- **The forward scan finds the first unescaped mark.** The scan starts at an offset that is not
escaped, so the backslashes that it meets escape the byte behind them.

**Proof sketch.** Induction along the scan, with the invariant that its offset is not escaped. It
steps over a backslash with the byte behind it (`unclosed_escape`), and over any other byte that does
not close. -/
theorem findClosing_fits (hcloser : closer ≠ backslash) (hesc : t.escaped pos = false) :
    (t.findClosing closer singleLine pos hi).Fits t closer singleLine pos hi := by
  fun_induction findClosing t closer singleLine pos hi with
  | case1 pos hlt hb ih =>
    obtain ⟨hskip, hnext⟩ := unclosed_escape hcloser hesc hb
    exact hskip.fits (ih hnext)
  | case2 pos hlt hb hc => exact ⟨bare_byte_iff.mpr ⟨byteIs_eq_iff.mp hc, hesc⟩, t.unclosed_self ..⟩
  | case3 pos hlt hb hc hn =>
    rw [Bool.and_eq_true] at hn
    exact ⟨hn.1, bare_byte_iff.mpr ⟨byteIs_eq_iff.mp hn.2, hesc⟩, t.unclosed_self ..⟩
  | case4 pos hlt hb hc hn ih =>
    have hskip : t.Unclosed closer singleLine pos (pos + 1) := by
      refine ⟨free_succ fun hbare => hc (byteIs_eq_iff.mpr hbare.byteAt), fun hline => ?_⟩
      exact free_succ fun hbare => hn (by rw [hline, byteIs_eq_iff.mpr hbare.byteAt]; rfl)
    exact hskip.fits (ih (escaped_succ_of_not (by simpa using hb)))
  | case5 pos hge => exact ⟨fun i h1 h2 => absurd h1 (by omega), fun _ i h1 h2 => absurd h1 (by omega)⟩

/-! ### The search -/

/-- A range without occurrences has no unescaped one. -/
lemma free_of_hasAt (h : ∀ j, pos ≤ j → j < i → t.hasAt j m = false) : t.Free m pos i :=
  fun j h1 h2 => not_bare_of_hasAt (h j h1 h2)

/-- In front of the occurrence that a search finds stands no unescaped one.

**Proof sketch.** Induction along the search. It goes on behind occurrences that are escaped, and
none lies between two of those that it finds. -/
lemma free_of_findUnescaped (h : t.findUnescaped m pos hi = some i) : t.Free m pos i := by
  fun_induction findUnescaped t m pos hi with
  | case1 => cases h
  | case2 pos hb j hj hesc ih =>
    have hskip := free_of_hasAt (find_eq_some_iff.mp hj).2.2.2
    exact hskip.trans ((free_succ (not_bare_of_escaped hesc)).trans (ih h))
  | case3 pos hb j hj hesc =>
    obtain rfl := Option.some.inj h
    exact free_of_hasAt (find_eq_some_iff.mp hj).2.2.2
  | case4 => cases h

/-- A search that starts between two characters finds nothing only where nothing is left. Behind the
first byte of a plain mark it goes on between two characters again.

**Proof sketch.** Induction along the search. An unescaped occurrence is not in front of the one that
is found next, and not that one if it is escaped. So it is behind it, where the search goes on. -/
lemma findUnescaped_eq_none_iff (ht : t.Valid) (hm : m.IsPlain) (hb : t.isBoundary pos = true) :
    t.findUnescaped m pos hi = none ↔ ∀ j, pos ≤ j → j + m.length ≤ hi → ¬ t.Bare m j := by
  constructor
  · intro h j h1 h2 hbare
    have hlen : 0 < m.length := List.length_pos_iff.mpr hm.1
    fun_induction findUnescaped t m pos hi with
    | case1 pos hpos hnone => exact not_bare_of_hasAt (find_eq_none_iff.mp hnone j h1 h2) hbare
    | case2 pos hpos i hi' hesc ih =>
      obtain ⟨-, -, hat, hbefore⟩ := find_eq_some_iff.mp hi'
      rcases Nat.lt_trichotomy j i with hlt | rfl | hgt
      · exact free_of_hasAt hbefore j h1 hlt hbare
      · exact not_bare_of_escaped hesc hbare
      · exact ih (isBoundary_succ_of_ascii ht (hasAt_iff.mp hat 0 hlen)
          (hm.2 _ (List.getElem_mem _)).1) h hgt
    | case3 => cases h
    | case4 pos hpos => exact hpos ⟨hb, by omega⟩
  · intro h
    cases hfound : t.findUnescaped m pos hi with
    | none => rfl
    | some i =>
      obtain ⟨h1, h2, hat, hesc⟩ := findUnescaped_bounds hfound
      exact absurd ⟨hat, hesc⟩ (h i h1 h2)

end Text

end LexPaint
