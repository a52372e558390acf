import LexPaint.Proofs.RequestSafety
import LexPaint.Proofs.SharedLines

set_option relaxedAutoImplicit false
set_option autoImplicit false

/-!
# What an edit leaves as it was

An edit puts bytes into a text or takes bytes away. The bytes before it stay where they are, and those
behind it move together with their styles. A notification that tells of the edit leads to a section of
full lines around it. So the lines before the section and those behind it are parts that the two texts
share.

## Main definitions

* `Text.Edited`, `Buffer.Edited`: a text that comes from another one by an edit, and the same with styles.
* `Notification.Tells`: the notifications that tell of an edit.
* `EditWindow.Around`: a window around full lines with the edit in them.

## Main results

* `EditWindow.around_of_tells`: the window that a notification leads to.
* `EditWindow.Around.twin_before`, `EditWindow.Around.twin_after`: the shared parts.
* `EditWindow.Around.shares`: a line start that moves with what follows is at the edit or before it.
-/

namespace LexPaint

/-- A text comes from another one by an edit at an offset, which puts some bytes there or takes some
away. -/
structure Text.Edited (t t₀ : Text) (pos added removed : Nat) : Prop where
  valid : t.Valid
  valid₀ : t₀.Valid
  before : ∀ i, i < pos → t.byteAt i = t₀.byteAt i
  after : ∀ k, t.byteAt (pos + added + k) = t₀.byteAt (pos + removed + k)
  le_size : pos + added ≤ t.size
  le_size₀ : pos + removed ≤ t₀.size
  size_eq : t.size + removed = t₀.size + added
  oneWay : added = 0 ∨ removed = 0

/-- An edit that puts nothing in and takes nothing away changes nothing. -/
lemma Text.Edited.eq_of_empty {t t₀ : Text} {pos : Nat} (h : t.Edited t₀ pos 0 0) : t = t₀ := by
  refine Text.ext_byteAt fun i => ?_
  rcases Nat.lt_or_ge i pos with hlt | hge
  · exact h.before i hlt
  · have := h.after (i - pos)
    rwa [Nat.add_zero, Nat.add_sub_cancel' hge] at this

namespace Text.Edited

variable {t t₀ : Text} {pos added removed : Nat}

/-- What precedes the edit is a prefix of both texts. So an edit between two characters still stands
between two characters.

**Proof sketch.** A boundary is the length of a valid prefix (`Text.isBoundary_iff`). -/
lemma isBoundary_start (h : t.Edited t₀ pos added removed) (hpos : t₀.isBoundary pos = true) :
    t.isBoundary pos = true := by
  have hle := h.le_size
  have heq : t.between 0 pos = t₀.between 0 pos := by
    refine ext_byteAt fun i => ?_
    rw [byteAt_between, byteAt_between, Nat.zero_add]
    split
    · exact h.before i (by assumption)
    · rfl
  have hprefix : (t₀.between 0 pos).Valid := ((isBoundary_iff h.valid₀).mp hpos).2
  rw [← heq] at hprefix
  exact (isBoundary_iff h.valid).mpr ⟨by omega, hprefix⟩

/-- What follows the edit begins with the byte that followed it before. -/
lemma isBoundary_stop (h : t.Edited t₀ pos added removed)
    (hstop : t₀.isBoundary (pos + removed) = true) : t.isBoundary (pos + added) = true := by
  have hle := h.le_size
  have hafter := h.after 0
  rw [Nat.add_zero, Nat.add_zero] at hafter
  rw [isBoundary_iff_byteIs h.valid₀] at hstop
  exact (isBoundary_iff_byteIs h.valid).mpr ⟨hle, by rw [byteIs_congr hafter]; exact hstop.2⟩

end Text.Edited

/-! ### Buffers -/

/-- A styled text comes from another one by an edit: the styles outside of it stay with their
bytes. -/
structure Buffer.Edited (b b₀ : Buffer) (pos added removed : Nat) : Prop where
  text : b.text.Edited b₀.text pos added removed
  styles_before : ∀ i, i < pos → b.styles[i]? = b₀.styles[i]?
  styles_after : ∀ k, b.styles[pos + added + k]? = b₀.styles[pos + removed + k]?

namespace Buffer

variable {b b' : Buffer} {pos length : Nat} {u : Text} {n : Notification}

/-- A cut from the front has the first styles. -/
lemma getElem?_extract_front (styles : Array Style) {i : Nat} (hi : i < pos) :
    (styles.extract 0 pos)[i]? = styles[i]? := by
  rw [Array.getElem?_extract, Nat.zero_add]
  split
  · rfl
  · exact (Array.getElem?_eq_none (by omega)).symm

/-- A cut from an offset on has the styles from there on. -/
lemma getElem?_extract_back (styles : Array Style) (k : Nat) :
    (styles.extract pos styles.size)[k]? = styles[pos + k]? := by
  rw [Array.getElem?_extract]
  split
  · rfl
  · exact (Array.getElem?_eq_none (by omega)).symm

/-- A cut from the front is as long as was asked for. -/
lemma size_front (b : Buffer) (hle : pos ≤ b.text.size) : (b.styles.extract 0 pos).size = pos := by
  have hstyles := b.size_styles
  rw [Array.size_extract]
  omega

/-- A buffer into which a text was inserted: what was behind the offset has moved by the length of
that text. -/
lemma edited_insert (hb : b.text.Valid) (hu : u.Valid) (hpos : b.text.isBoundary pos = true)
    (h : b.insert pos u = .ok (b', n)) : b'.Edited b pos u.size 0 := by
  have hle := Text.le_size_of_isBoundary hpos
  have hfrontStyles := b.size_front hle
  have hfront := Text.size_between b.text 0 hle
  unfold insert at h
  rw [dif_pos hpos] at h
  cases h
  refine ⟨⟨valid_insertText hb hu hpos, hb, fun i hi => ?_, fun k => ?_, ?_, hle, ?_, .inr rfl⟩,
    fun i hi => ?_, fun k => ?_⟩
  · show (insertText b.text pos u).byteAt i = _
    unfold insertText
    rw [Text.byteAt_append, if_pos (by rw [Text.size_append]; omega), Text.byteAt_append,
      if_pos (by omega), Text.byteAt_between, if_pos (by omega), Nat.zero_add]
  · -- behind the inserted text
    show (insertText b.text pos u).byteAt (pos + u.size + k) = _
    unfold insertText
    rw [Text.byteAt_append, if_neg (by rw [Text.size_append]; omega), Text.size_append, hfront,
      show pos + u.size + k - (pos - 0 + u.size) = k by omega, Text.byteAt_between]
    by_cases hk : pos + k < b.text.size
    · rw [if_pos hk, Nat.add_zero]
    · rw [if_neg hk]
      exact (Text.byteAt_eq_none_iff.mpr (by omega)).symm
  · show pos + u.size ≤ (insertText b.text pos u).size
    rw [size_insertText _ _ hle]
    omega
  · show (insertText b.text pos u).size + 0 = _
    rw [size_insertText _ _ hle]
    omega
  · show (b.styles.extract 0 pos ++ Array.replicate u.size .plain ++
      b.styles.extract pos b.styles.size)[i]? = _
    rw [Array.append_assoc, Array.getElem?_append_left (by rw [hfrontStyles]; exact hi),
      getElem?_extract_front _ hi]
  · show (b.styles.extract 0 pos ++ Array.replicate u.size .plain ++
      b.styles.extract pos b.styles.size)[pos + u.size + k]? = _
    have hfull : (b.styles.extract 0 pos ++ Array.replicate u.size Style.plain).size =
        pos + u.size := by
      rw [Array.size_append, hfrontStyles, Array.size_replicate]
    rw [Array.getElem?_append_right (by omega), getElem?_extract_back, hfull,
      show pos + (pos + u.size + k - (pos + u.size)) = pos + 0 + k by omega]

/-- A buffer from which a range was removed: what was behind the range stands at its start now. -/
lemma edited_remove (hb : b.text.Valid) (hpos : b.text.isBoundary pos = true)
    (hstop : b.text.isBoundary (pos + length) = true) (h : b.remove pos length = .ok (b', n)) :
    b'.Edited b pos 0 length := by
  have hle := Text.le_size_of_isBoundary hstop
  have hfrontStyles : (b.styles.extract 0 pos).size = pos := b.size_front (by omega)
  have hfront : (b.text.between 0 pos).size = pos - 0 := Text.size_between b.text 0 (by omega)
  unfold remove at h
  rw [dif_pos ⟨hpos, hstop⟩] at h
  cases h
  have hsize : (removeText b.text pos (pos + length)).size = b.text.size - (pos + length - pos) :=
    size_removeText _ (Nat.le_add_right pos length) hle
  refine ⟨⟨valid_removeText hb hpos hstop, hb, fun i hi => ?_, fun k => ?_, ?_, hle, ?_, .inl rfl⟩,
    fun i hi => ?_, fun k => ?_⟩
  · show (removeText b.text pos (pos + length)).byteAt i = _
    unfold removeText
    rw [Text.byteAt_append, if_pos (by omega), Text.byteAt_between, if_pos (by omega),
      Nat.zero_add]
  · -- behind the removed range
    show (removeText b.text pos (pos + length)).byteAt (pos + 0 + k) = _
    unfold removeText
    rw [Text.byteAt_append, if_neg (by omega), hfront,
      show pos + 0 + k - (pos - 0) = k by omega, Text.byteAt_between]
    by_cases hk : pos + length + k < b.text.size
    · rw [if_pos hk]
    · rw [if_neg hk]
      exact (Text.byteAt_eq_none_iff.mpr (by omega)).symm
  · show pos + 0 ≤ (removeText b.text pos (pos + length)).size
    omega
  · show (removeText b.text pos (pos + length)).size + length = _
    omega
  · show (b.styles.extract 0 pos ++ b.styles.extract (pos + length) b.styles.size)[i]? = _
    rw [Array.getElem?_append_left (by rw [hfrontStyles]; exact hi), getElem?_extract_front _ hi]
  · show (b.styles.extract 0 pos ++ b.styles.extract (pos + length) b.styles.size)[pos + 0 + k]? = _
    rw [Array.getElem?_append_right (by omega), getElem?_extract_back, hfrontStyles,
      show pos + length + (pos + 0 + k - pos) = pos + length + k by omega]

end Buffer

/-! ### Notifications -/

/-- The notification tells of the edit: it is the one that the buffer returns, or it says that
something changed at the offset. -/
inductive Notification.Tells (pos added removed : Nat) : Notification → Prop
  | inserted {u : Text} (hadded : u.size = added) (hremoved : removed = 0) :
    Tells pos added removed (.inserted pos u)
  | removed (hadded : added = 0) : Tells pos added removed (.removed pos removed)
  | changed (newlineInserted : Bool) : Tells pos added removed (.changed pos newlineInserted)

/-- The range that such a notification leads to ends with the edit.

**Proof sketch.** By cases on the notification. The one of the buffer names both ends. The other one
adds to its offset by how much the text has grown, and the edit has either put bytes in or taken some
away. -/
lemma Notification.Tells.range {t t₀ : Text} {pos added removed : Nat} {n : Notification}
    {range : Nat × Nat} (hn : n.Tells pos added removed) (he : t.Edited t₀ pos added removed)
    (h : n.editedRange t t₀.size = some range) : range.1 ≤ pos ∧ range.2 = pos + added := by
  have hsize := he.size_eq
  obtain ⟨hclaimed, -⟩ := Option.filter_eq_some_iff.mp h
  cases hn with
  | inserted hadded hremoved =>
    simp only [claimedRange] at hclaimed
    split at hclaimed
    · cases hclaimed
    · split at hclaimed
      · split at hclaimed
        · cases hclaimed
          exact ⟨Nat.le_refl _, by rw [hadded]⟩
        · cases hclaimed
      · cases hclaimed
  | removed hadded =>
    simp only [claimedRange] at hclaimed
    split at hclaimed
    · cases hclaimed
    · cases hclaimed
      exact ⟨Nat.le_refl _, by rw [hadded, Nat.add_zero]⟩
  | changed newlineInserted =>
    simp only [claimedRange] at hclaimed
    split at hclaimed
    · cases hclaimed
    · cases hclaimed
      -- an edit that takes bytes away puts none in, and the text has not grown then
      have hadded : t.size - t₀.size = added := by
        rcases he.oneWay with h | h <;> omega
      refine ⟨?_, by rw [hadded]⟩
      dsimp only
      split <;> omega

/-! ### Windows -/

namespace EditWindow

/-- The window surrounds full lines with the edit in them; the section ends with the line on which
the edit ends. -/
structure Around (w : EditWindow) (t t₀ : Text) (pos added removed : Nat) : Prop where
  edited : t.Edited t₀ pos added removed
  startsLine : t.StartsLine w.start
  start_le : w.start ≤ pos
  stop_eq : w.stop = t.lineEnd (pos + added)
  oldStop_eq : w.oldStop + added = w.stop + removed

variable {w : EditWindow} {t t₀ : Text} {pos added removed : Nat}

/-- A notification that tells of the edit leads to a window around it.

**Proof sketch.** The range ends with the edit (`Notification.Tells.range`), so the lines around it
hold the edit. The old end of the section follows from the two lengths. -/
theorem around_of_tells (he : t.Edited t₀ pos added removed) {n : Notification}
    (hn : n.Tells pos added removed) {first last : Nat}
    (hrange : n.editedRange t t₀.size = some (first, last)) {s : Section}
    (hs : Section.lines t first last = .ok s) (hw : ofSection? s t₀.size t.size = some w) :
    w.Around t t₀ pos added removed ∧ w.start = s.start ∧ w.stop = s.stop := by
  obtain ⟨hfirst, hlast⟩ := hn.range he hrange
  obtain ⟨hlies, hstart, hstop⟩ := (Section.lines_ensures he.valid first last).elim hs
  have hle := he.le_size
  have hsize := he.size_eq
  have hlow := Text.lineStart_le t (min first t.size)
  dsimp only at hfirst hlast
  unfold ofSection? at hw
  dsimp only at hw
  split at hw
  · split at hw
    · split at hw
      · cases hw
        refine ⟨⟨he, hlies.startsLine, by dsimp only; omega, ?_, by dsimp only; omega⟩, rfl, rfl⟩
        rw [hstop, Nat.max_eq_left (by omega), Nat.min_eq_left (by omega), hlast]
      · cases hw
    · cases hw
  · cases hw

namespace Around

/-- The section lies in the text. -/
lemma stop_le (h : w.Around t t₀ pos added removed) : w.stop ≤ t.size := by
  rw [h.stop_eq]
  exact Text.le_size_of_isBoundary (Text.endsLine_lineEnd t _).isBoundary

/-- The edit lies in the section. -/
lemma le_stop (h : w.Around t t₀ pos added removed) : pos + added ≤ w.stop := by
  rw [h.stop_eq]
  exact Text.le_lineEnd h.edited.le_size

/-- The section does not end in front of its start. -/
lemma start_le_stop (h : w.Around t t₀ pos added removed) : w.start ≤ w.stop := by
  have := h.start_le
  have := h.le_stop
  omega

/-- The bytes behind the section are those that followed it before the edit. -/
lemma byteAt_stop_add (h : w.Around t t₀ pos added removed) (k : Nat) :
    t.byteAt (w.stop + k) = t₀.byteAt (w.oldStop + k) := by
  have h1 := h.le_stop
  have h2 := h.oldStop_eq
  have := h.edited.after (w.stop + k - (pos + added))
  rwa [Nat.add_sub_cancel' (by omega),
    show pos + removed + (w.stop + k - (pos + added)) = w.oldStop + k by omega] at this

/-- Both texts have the lines before the section.

**Proof sketch.** The section starts at or before the edit, and there the texts agree. It starts
where a line starts, so both texts have a newline in front of it, if anything. -/
theorem twin_before (h : w.Around t t₀ pos added removed) : t.Twin t₀ 0 0 w.start := by
  have h1 := h.start_le
  have h2 := h.edited.le_size
  have h3 := h.edited.le_size₀
  refine ⟨h.edited.valid, h.edited.valid₀, fun k hk => ?_, by omega, by omega, .inl ⟨rfl, rfl⟩,
    .inr fun hpos => ?_⟩
  · rw [Nat.zero_add]
    exact h.edited.before k (by omega)
  · rw [Nat.zero_add]
    exact h.startsLine.resolve_left (by omega) |>.2

/-- Both texts have what follows the section.

**Proof sketch.** The section ends behind the edit at the end of a line, and what follows has moved
as a whole. -/
theorem twin_after (h : w.Around t t₀ pos added removed) :
    t.Twin t₀ w.stop w.oldStop (t.size - w.stop) := by
  have h1 := h.stop_le
  have h2 := h.edited.size_eq
  have h3 := h.oldStop_eq
  refine ⟨h.edited.valid, h.edited.valid₀, fun k _ => h.byteAt_stop_add k, by omega, by omega,
    .inr fun hpos => ?_, .inl ⟨by omega, by omega⟩⟩
  have hends := Text.endsLine_lineEnd t (pos + added)
  rw [← h.stop_eq] at hends
  exact hends.resolve_left (by omega)

/-- Where a line starts in the section, and a line started as far before the old end of the section,
the texts share the lines before the earlier one of the two.

**Proof sketch.** No line ends between the edit and the end of the section. So the earlier one of the
line starts, in the text that the edit has made shorter, does not lie behind the edit. -/
theorem shares (h : w.Around t t₀ pos added removed) {n n₀ : Nat} (hn : t.StartsLine n)
    (hn₀ : t₀.StartsLine n₀) (hstop : n ≤ w.stop) (halign : n + w.oldStop = n₀ + w.stop)
    (hpos : 0 < min n n₀) : t.Shares t₀ (min n n₀) := by
  have h1 := h.oldStop_eq
  have hle := h.edited.le_size
  have hle₀ := h.edited.le_size₀
  have hnoline (j : Nat) (hj : pos + added ≤ j) (hj' : j < w.stop) : t.byteAt j ≠ some newline := by
    rw [h.stop_eq] at hj'
    exact Text.byteAt_ne_newline_of_lt_lineEnd hj hj'
  have hline := (hn.resolve_left (by omega)).2
  have hline₀ := (hn₀.resolve_left (by omega)).2
  have hmin : min n n₀ ≤ pos := by
    refine Nat.le_of_not_lt fun hlt => ?_
    rcases h.edited.oneWay with hadded | hremoved
    · exact hnoline (n - 1) (by omega) (by omega) hline
    · have hafter := h.edited.after (n₀ - 1 - pos)
      rw [show pos + removed + (n₀ - 1 - pos) = n₀ - 1 by omega, hline₀] at hafter
      exact hnoline _ (by omega) (by omega) hafter
  have hlast : t.byteAt (min n n₀ - 1) = some newline := by
    rcases Nat.le_total n n₀ with hle' | hle'
    · rwa [Nat.min_eq_left hle']
    · rw [Nat.min_eq_right hle'] at hmin ⊢
      rw [h.edited.before _ (by omega)]
      exact hline₀
  refine ⟨⟨h.edited.valid, h.edited.valid₀, fun k hk => ?_, by omega, by omega, .inl ⟨rfl, rfl⟩,
    .inr fun _ => ?_⟩, hpos, hlast⟩
  · rw [Nat.zero_add]
    exact h.edited.before k (by omega)
  · rwa [Nat.zero_add]

end Around

end EditWindow

end LexPaint
