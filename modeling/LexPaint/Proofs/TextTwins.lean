import LexPaint.Proofs.Scans

set_option relaxedAutoImplicit false
set_option autoImplicit false

/-!
# Parts that two texts share

An edit leaves the lines before it and the lines behind it as they were, though those behind it move.
Such a part is a twin: a range of bytes that stands in both texts, at offsets of its own in each. What
precedes it is the start of the text or else it begins with a newline, and it ends with the text or
with a newline. That is enough for searches for anything that keeps to its line to answer alike.

## Main definitions

* `Text.Twin`: a range of one text that is a range of another one.
* `Text.Inside`: a range inside of such a range.

## Main results

* `Text.Twin.charAt_eq`, `Text.Twin.charBefore_eq`: the characters of a twin.
* `Text.Inside.find_cases`, `Text.Inside.findByte_cases`, `Text.Inside.findChar_cases`: searches in a
  range inside of a twin.
-/

namespace LexPaint

namespace Text

/-- The `n` bytes from `b` on in one text are those from `b₀` on in another one. The range begins
with the texts or with a newline, and it ends with the texts or with a newline. -/
structure Twin (t t₀ : Text) (b b₀ n : Nat) : Prop where
  valid : t.Valid
  valid₀ : t₀.Valid
  bytes : ∀ k, k < n → t.byteAt (b + k) = t₀.byteAt (b₀ + k)
  le_size : b + n ≤ t.size
  le_size₀ : b₀ + n ≤ t₀.size
  opens : b = 0 ∧ b₀ = 0 ∨ (0 < n → t.byteAt b = some newline)
  closes : b + n = t.size ∧ b₀ + n = t₀.size ∨ (0 < n → t.byteAt (b + n - 1) = some newline)

namespace Twin

variable {t t₀ : Text} {b b₀ n j k : Nat}

/-- A twin is a twin whichever text comes first. -/
lemma symm (h : t.Twin t₀ b b₀ n) : t₀.Twin t b₀ b n where
  valid := h.valid₀
  valid₀ := h.valid
  bytes k hk := (h.bytes k hk).symm
  le_size := h.le_size₀
  le_size₀ := h.le_size
  opens := h.opens.imp And.symm fun hn h0 => by
    have := h.bytes 0 h0
    rw [Nat.add_zero, Nat.add_zero] at this
    exact this ▸ hn h0
  closes := h.closes.imp And.symm fun hn h0 => by
    have := h.bytes (n - 1) (by omega)
    rw [show b₀ + n - 1 = b₀ + (n - 1) by omega, ← this, show b + (n - 1) = b + n - 1 by omega]
    exact hn h0

/-- The bytes of a twin are of the same sorts. -/
lemma byteIs_eq (h : t.Twin t₀ b b₀ n) (hj : j < n) (p : UInt8 → Bool) :
    t.byteIs p (b + j) = t₀.byteIs p (b₀ + j) :=
  byteIs_congr (h.bytes j hj)

/-! ### Characters -/

/-- A twin starts between characters. -/
lemma isBoundary_start (h : t.Twin t₀ b b₀ n) (hn : 0 < n) : t.isBoundary b = true := by
  rcases h.opens with ⟨rfl, -⟩ | hb
  · exact isBoundary_zero t
  · exact isBoundary_of_byteAt_newline (hb hn)

/-- A twin ends between characters. -/
lemma isBoundary_stop (h : t.Twin t₀ b b₀ n) (hn : 0 < n) : t.isBoundary (b + n) = true := by
  rcases h.closes with ⟨hs, -⟩ | hb
  · rw [hs]
    exact isBoundary_size t
  · have := isBoundary_succ_of_ascii h.valid (hb hn) (by decide)
    rwa [show b + n - 1 + 1 = b + n by omega] at this

/-- A twin has the same boundaries in both texts. -/
lemma isBoundary_eq (h : t.Twin t₀ b b₀ n) (hn : 0 < n) (hj : j ≤ n) :
    t.isBoundary (b + j) = t₀.isBoundary (b₀ + j) := by
  rcases Nat.eq_zero_or_pos j with rfl | h0
  · exact (h.isBoundary_start hn).trans (h.symm.isBoundary_start hn).symm
  rcases Nat.lt_or_eq_of_le hj with hlt | rfl
  · have h1 := h.le_size
    have h2 := h.le_size₀
    have hne : (b + j == 0) = false := by simp; omega
    have hne₀ : (b₀ + j == 0) = false := by simp; omega
    have hns : (b + j == t.size) = false := by simp; omega
    have hns₀ : (b₀ + j == t₀.size) = false := by simp; omega
    rw [isBoundary, isBoundary, hne, hne₀, hns, hns₀, h.byteIs_eq hlt]
  · exact (h.isBoundary_stop hn).trans (h.symm.isBoundary_stop hn).symm

/-- A character of a twin in one text is one in the other. -/
lemma charAt_of_charAt (h : t.Twin t₀ b b₀ n) (hj : j < n) {c : Char}
    (hc : t.charAt (b + j) = some c) : t₀.charAt (b₀ + j) = some c := by
  have hle := add_utf8Size_le hc (h.isBoundary_stop (by omega)) (by omega)
  rw [charAt_eq_some_iff] at hc ⊢
  rw [← hc]
  refine hasAt_congr fun i hi => ?_
  rw [String.length_utf8EncodeChar] at hi
  have := h.bytes (j + i) (by omega)
  rw [← Nat.add_assoc, ← Nat.add_assoc] at this
  exact this.symm

/-- The characters of a twin are the same in both texts. -/
lemma charAt_eq (h : t.Twin t₀ b b₀ n) (hj : j < n) : t.charAt (b + j) = t₀.charAt (b₀ + j) := by
  refine Option.ext fun c => ⟨h.charAt_of_charAt hj, h.symm.charAt_of_charAt hj⟩

/-- What follows a byte of a twin is the same in both texts, unless that byte is a newline.

**Proof sketch.** The byte is not the last one of the twin, unless the twin ends with both texts. -/
lemma charAt_succ_eq (h : t.Twin t₀ b b₀ n) (hj : j < n)
    (hline : t.byteAt (b + j) ≠ some newline) :
    t.charAt (b + (j + 1)) = t₀.charAt (b₀ + (j + 1)) := by
  rcases Nat.lt_or_ge (j + 1) n with hlt | hge
  · exact h.charAt_eq hlt
  · obtain rfl : j + 1 = n := by omega
    rcases h.closes with ⟨hs, hs₀⟩ | hn
    · have hnone (u : Text) : u.charAt u.size = none := by
        cases hc : u.charAt u.size with
        | none => rfl
        | some c =>
          have := le_size_of_hasAt (charAt_eq_some_iff.mp hc) String.utf8EncodeChar_ne_nil
          rw [String.length_utf8EncodeChar] at this
          have := c.utf8Size_pos
          omega
      rw [hs, hs₀, hnone, hnone]
    · exact absurd (hn (by omega)) hline

/-- The boundary in front of an offset of a twin lies in the twin, and it is the same in both texts. -/
lemma prevBoundary_eq (h : t.Twin t₀ b b₀ n) (hj : j < n) :
    ∃ i, i ≤ j ∧ t.prevBoundary (b + (j + 1)) = b + i ∧ t₀.prevBoundary (b₀ + (j + 1)) = b₀ + i := by
  induction j with
  | zero =>
    have hb := h.isBoundary_start hj
    have hb₀ := h.symm.isBoundary_start hj
    refine ⟨0, Nat.le_refl _, ?_, ?_⟩
    · rw [Nat.zero_add, prevBoundary, if_pos hb]
      rfl
    · rw [Nat.zero_add, prevBoundary, if_pos hb₀]
      rfl
  | succ j ih =>
    have heq := h.isBoundary_eq (j := j + 1) (by omega) (by omega)
    show ∃ i, i ≤ j + 1 ∧
      (if t.isBoundary (b + (j + 1)) then b + (j + 1) else t.prevBoundary (b + (j + 1))) = b + i ∧
      (if t₀.isBoundary (b₀ + (j + 1)) then b₀ + (j + 1) else t₀.prevBoundary (b₀ + (j + 1))) = b₀ + i
    rw [heq]
    split
    · exact ⟨j + 1, Nat.le_refl _, rfl, rfl⟩
    · obtain ⟨i, hi, h1, h2⟩ := ih (by omega)
      exact ⟨i, by omega, h1, h2⟩

/-- What precedes an offset of a twin is the same in both texts, where it does not start with a
newline.

**Proof sketch.** The offset is not the first one of the twin, unless the twin starts with both
texts. -/
lemma charBefore_eq (h : t.Twin t₀ b b₀ n) (hj : j < n)
    (hline : t.byteAt (b + j) ≠ some newline) :
    t.charBefore (b + j) = t₀.charBefore (b₀ + j) := by
  cases j with
  | zero =>
    rcases h.opens with ⟨rfl, rfl⟩ | hn
    · rfl
    · exact absurd (hn hj) hline
  | succ j =>
    obtain ⟨i, hi, h1, h2⟩ := h.prevBoundary_eq (j := j) (by omega)
    unfold charBefore
    rw [h.isBoundary_eq (by omega) (by omega), h1, h2, h.charAt_eq (by omega)]
    rfl

/-! ### Searches -/

/-- A mark inside the part occurs in both texts or in neither. -/
lemma hasAt_inside_eq (h : t.Twin t₀ b b₀ n) {m : Mark} (hj : j + m.length ≤ n) :
    t.hasAt (b + j) m = t₀.hasAt (b₀ + j) m := by
  refine hasAt_congr fun i hi => ?_
  have := h.bytes (j + i) (by omega)
  rwa [← Nat.add_assoc, ← Nat.add_assoc] at this

/-- A plain mark that starts in a twin ends there, and it stands in both texts. -/
lemma hasAt_of_hasAt (h : t.Twin t₀ b b₀ n) {m : Mark} (hm : m.IsPlain) (hj : j < n)
    (hat : t.hasAt (b + j) m = true) : j + m.length ≤ n ∧ t₀.hasAt (b₀ + j) m = true := by
  have hle : j + m.length ≤ n := by
    refine Nat.le_of_not_lt fun hgt => ?_
    rcases h.closes with ⟨hs, -⟩ | hn
    · have := le_size_of_hasAt hat hm.1
      omega
    · exact byteAt_ne_newline hm hat (i := b + n - 1) (by omega) (by omega) (hn (by omega))
  refine ⟨hle, ?_⟩
  rw [← h.hasAt_inside_eq hle]
  exact hat

/-- A plain mark occurs in both texts or in neither. -/
lemma hasAt_eq (h : t.Twin t₀ b b₀ n) {m : Mark} (hm : m.IsPlain) (hj : j < n) :
    t.hasAt (b + j) m = t₀.hasAt (b₀ + j) m := by
  rw [Bool.eq_iff_iff]
  exact ⟨fun hat => (h.hasAt_of_hasAt hm hj hat).2, fun hat => (h.symm.hasAt_of_hasAt hm hj hat).2⟩

/-- Behind a byte that is no newline a plain mark occurs in both texts or in neither.

**Proof sketch.** As for characters. -/
lemma hasAt_succ_eq (h : t.Twin t₀ b b₀ n) {m : Mark} (hm : m.IsPlain) (hj : j < n)
    (hline : t.byteAt (b + j) ≠ some newline) :
    t.hasAt (b + (j + 1)) m = t₀.hasAt (b₀ + (j + 1)) m := by
  rcases Nat.lt_or_ge (j + 1) n with hlt | hge
  · exact h.hasAt_eq hm hlt
  · obtain rfl : j + 1 = n := by omega
    rcases h.closes with ⟨hs, hs₀⟩ | hn
    · have hnone (u : Text) : u.hasAt u.size m = false := by
        rw [Bool.eq_false_iff]
        intro hat
        have := le_size_of_hasAt hat hm.1
        have := List.length_pos_iff.mpr hm.1
        omega
      rw [hs, hs₀, hnone, hnone]
    · exact absurd (hn (by omega)) hline

end Twin

/-- The `n` bytes from `b` on in one text and those from `b₀` on in another one lie in a part that the
texts share, and they start at the same distance from its start. -/
def Inside (t t₀ : Text) (b b₀ n : Nat) : Prop :=
  ∃ c c₀ d m, t.Twin t₀ c c₀ m ∧ b = c + d ∧ b₀ = c₀ + d ∧ d + n ≤ m

namespace Inside

variable {t t₀ : Text} {b b₀ n j k : Nat}

/-- A range lies in a shared part whichever text comes first. -/
lemma symm (h : t.Inside t₀ b b₀ n) : t₀.Inside t b₀ b n := by
  obtain ⟨c, c₀, d, m, htwin, hb, hb₀, hle⟩ := h
  exact ⟨c₀, c, d, m, htwin.symm, hb₀, hb, hle⟩

/-- The bytes of such a range are the same. -/
lemma byteAt_eq (h : t.Inside t₀ b b₀ n) (hj : j < n) : t.byteAt (b + j) = t₀.byteAt (b₀ + j) := by
  obtain ⟨c, c₀, d, m, htwin, rfl, rfl, hle⟩ := h
  rw [Nat.add_assoc, Nat.add_assoc]
  exact htwin.bytes (d + j) (by omega)

/-- The bytes of such a range are of the same sorts. -/
lemma byteIs_eq (h : t.Inside t₀ b b₀ n) (hj : j < n) (p : UInt8 → Bool) :
    t.byteIs p (b + j) = t₀.byteIs p (b₀ + j) :=
  byteIs_congr (h.byteAt_eq hj)

/-- The characters of such a range are the same. -/
lemma charAt_eq (h : t.Inside t₀ b b₀ n) (hj : j < n) : t.charAt (b + j) = t₀.charAt (b₀ + j) := by
  obtain ⟨c, c₀, d, m, htwin, rfl, rfl, hle⟩ := h
  rw [Nat.add_assoc, Nat.add_assoc]
  exact htwin.charAt_eq (by omega)

/-- What follows a byte is the same in both texts, unless that byte is a newline. -/
lemma charAt_succ_eq (h : t.Inside t₀ b b₀ n) (hj : j < n)
    (hline : t.byteAt (b + j) ≠ some newline) :
    t.charAt (b + (j + 1)) = t₀.charAt (b₀ + (j + 1)) := by
  obtain ⟨c, c₀, d, m, htwin, rfl, rfl, hle⟩ := h
  rw [Nat.add_assoc] at hline ⊢
  rw [Nat.add_assoc]
  exact htwin.charAt_succ_eq (j := d + j) (by omega) hline

/-- A mark in the range occurs in both texts or in neither. -/
lemma hasAt_inside_eq (h : t.Inside t₀ b b₀ n) {m : Mark} (hj : j + m.length ≤ n) :
    t.hasAt (b + j) m = t₀.hasAt (b₀ + j) m := by
  obtain ⟨c, c₀, d, n', htwin, rfl, rfl, hle⟩ := h
  rw [Nat.add_assoc, Nat.add_assoc]
  exact htwin.hasAt_inside_eq (by omega)

/-- Two searches that find the same offsets find nothing, or the same.

**Proof sketch.** By cases on both answers. -/
lemma cases_of_forall {x y : Option Nat} {len : Nat}
    (hxy : ∀ j, x = some (b + j) → y = some (b₀ + j))
    (hyx : ∀ j, y = some (b₀ + j) → x = some (b + j))
    (hx : ∀ i, x = some i → b + k ≤ i ∧ i + len ≤ b + n) (hy : ∀ i, y = some i → b₀ ≤ i) :
    x = none ∧ y = none ∨ ∃ j, k ≤ j ∧ j + len ≤ n ∧ x = some (b + j) ∧ y = some (b₀ + j) := by
  cases x with
  | some i =>
    obtain ⟨h1, h2⟩ := hx i rfl
    have hi : i = b + (i - b) := by omega
    exact .inr ⟨i - b, by omega, by omega, congrArg some hi, hxy _ (congrArg some hi)⟩
  | none =>
    refine .inl ⟨rfl, ?_⟩
    cases y with
    | none => rfl
    | some i =>
      have hi : i = b₀ + (i - b₀) := by
        have := hy i rfl
        omega
      cases hyx _ (congrArg some hi)

/-- What a search for a mark finds in one text, it finds in the other. -/
lemma find_of_find (h : t.Inside t₀ b b₀ n) {m : Mark}
    (hf : t.find m (b + k) (b + n) = some (b + j)) :
    t₀.find m (b₀ + k) (b₀ + n) = some (b₀ + j) := by
  obtain ⟨h1, h2, h3, h4⟩ := find_eq_some_iff.mp hf
  refine find_eq_some_iff.mpr ⟨by omega, by omega, ?_, fun i hi hij => ?_⟩
  · rw [← h.hasAt_inside_eq (by omega)]
    exact h3
  · have := h4 (b + (i - b₀)) (by omega) (by omega)
    rw [h.hasAt_inside_eq (by omega), show b₀ + (i - b₀) = i by omega] at this
    exact this

/-- A search for a mark inside of a twin finds nothing in either text, or the same occurrence. -/
lemma find_cases (h : t.Inside t₀ b b₀ n) (m : Mark) (k : Nat) :
    t.find m (b + k) (b + n) = none ∧ t₀.find m (b₀ + k) (b₀ + n) = none ∨
      ∃ j, k ≤ j ∧ j + m.length ≤ n ∧ t.find m (b + k) (b + n) = some (b + j) ∧
        t₀.find m (b₀ + k) (b₀ + n) = some (b₀ + j) := by
  refine cases_of_forall (fun j => h.find_of_find) (fun j => h.symm.find_of_find)
    (fun i hi => ?_) fun i hi => ?_
  · obtain ⟨h1, h2, -⟩ := find_bounds hi
    exact ⟨h1, h2⟩
  · have := (find_bounds hi).1
    omega

/-- What a search for a byte finds in one text, it finds in the other. -/
lemma findByte_of_findByte (h : t.Inside t₀ b b₀ n) {p : UInt8 → Bool}
    (hf : t.findByte p (b + k) (b + n) = some (b + j)) :
    t₀.findByte p (b₀ + k) (b₀ + n) = some (b₀ + j) := by
  obtain ⟨h1, h2, h3, h4⟩ := findByte_eq_some_iff.mp hf
  refine findByte_eq_some_iff.mpr ⟨by omega, by omega, ?_, fun i hi hij => ?_⟩
  · rw [← h.byteIs_eq (by omega)]
    exact h3
  · have := h4 (b + (i - b₀)) (by omega) (by omega)
    rw [h.byteIs_eq (by omega), show b₀ + (i - b₀) = i by omega] at this
    exact this

/-- A search for a byte inside of a twin finds nothing in either text, or the same byte. -/
lemma findByte_cases (h : t.Inside t₀ b b₀ n) (p : UInt8 → Bool) (k : Nat) :
    t.findByte p (b + k) (b + n) = none ∧ t₀.findByte p (b₀ + k) (b₀ + n) = none ∨
      ∃ j, k ≤ j ∧ j + 1 ≤ n ∧ t.findByte p (b + k) (b + n) = some (b + j) ∧
        t₀.findByte p (b₀ + k) (b₀ + n) = some (b₀ + j) := by
  refine cases_of_forall (fun j => h.findByte_of_findByte) (fun j => h.symm.findByte_of_findByte)
    (fun i hi => ?_) fun i hi => ?_
  · obtain ⟨h1, h2, -⟩ := findByte_bounds hi
    exact ⟨h1, h2⟩
  · have := (findByte_bounds hi).1
    omega

/-- What a search for a character finds in one text, it finds in the other. -/
lemma findChar_of_findChar (h : t.Inside t₀ b b₀ n) {p : Char → Bool}
    (hf : t.findChar p (b + k) (b + n) = some (b + j)) :
    t₀.findChar p (b₀ + k) (b₀ + n) = some (b₀ + j) := by
  obtain ⟨h1, h2, ⟨c, hc, hp⟩, h4⟩ := findChar_eq_some_iff.mp hf
  refine findChar_eq_some_iff.mpr ⟨by omega, by omega, ⟨c, (h.charAt_eq (by omega)).symm.trans hc, hp⟩,
    fun i d hi hij hd => ?_⟩
  rw [show i = b₀ + (i - b₀) by omega] at hd
  exact h4 (b + (i - b₀)) d (by omega) (by omega) ((h.charAt_eq (by omega)).trans hd)

/-- A search for a character inside of a twin finds nothing in either text, or the same character. -/
lemma findChar_cases (h : t.Inside t₀ b b₀ n) (p : Char → Bool) (k : Nat) :
    t.findChar p (b + k) (b + n) = none ∧ t₀.findChar p (b₀ + k) (b₀ + n) = none ∨
      ∃ j, k ≤ j ∧ j + 1 ≤ n ∧ t.findChar p (b + k) (b + n) = some (b + j) ∧
        t₀.findChar p (b₀ + k) (b₀ + n) = some (b₀ + j) := by
  refine cases_of_forall (fun j => h.findChar_of_findChar) (fun j => h.symm.findChar_of_findChar)
    (fun i hi => ?_) fun i hi => ?_
  · obtain ⟨h1, h2, -⟩ := findChar_bounds hi
    exact ⟨h1, h2⟩
  · have := (findChar_bounds hi).1
    omega

end Inside

end Text

end LexPaint
