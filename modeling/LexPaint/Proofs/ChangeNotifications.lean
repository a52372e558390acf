import LexPaint.Proofs.EditWindows

set_option relaxedAutoImplicit false
set_option autoImplicit false

/-!
# Notifications of a change

A notification that something has changed at an offset names neither what was inserted nor how much was
removed. What was written follows from the two lengths. With a flag the notification says that a line was
broken, and then the byte before the offset counts as written too. That byte may be the last one of a
longer character. A range that starts inside a character is refused, and so is such a notification,
although it is true.

## Main results

* `Text.isBoundary_pred_eq_false_iff`: where the byte before a boundary starts no character.
* `Notification.editedRange_changed_eq_none_iff`: all notifications of a change that are refused.
* `Edit.editedRange_changed`: the true ones, and what the others lead to.
-/

namespace LexPaint

/-! ### The boundary before an offset -/

namespace Text

variable {t : Text} {pos q : Nat}

/-- The boundary before an offset comes before it. -/
lemma prevBoundary_lt (t : Text) (h : 0 < pos) : t.prevBoundary pos < pos := by
  induction pos with
  | zero => exact absurd h (Nat.lt_irrefl _)
  | succ pos ih =>
    rw [prevBoundary]
    split
    · exact Nat.lt_succ_self _
    · rename_i hpos
      rcases Nat.eq_zero_or_pos pos with rfl | h0
      · exact absurd (isBoundary_zero t) hpos
      · exact Nat.lt_succ_of_lt (ih h0)

/-- The boundary before an offset is one: the search goes back until it finds one, and the start of
the text is one. -/
lemma isBoundary_prevBoundary (t : Text) (pos : Nat) : t.isBoundary (t.prevBoundary pos) = true := by
  induction pos with
  | zero => exact isBoundary_zero t
  | succ pos ih =>
    rw [prevBoundary]
    split
    · assumption
    · exact ih

/-- There is no boundary between an offset and the last boundary before it.

**Proof sketch.** Induction on the offset, as the search goes back byte by byte. -/
lemma isBoundary_eq_false_of_prevBoundary_lt (h : t.prevBoundary pos < q) (hq : q < pos) :
    t.isBoundary q = false := by
  induction pos with
  | zero => exact absurd hq (Nat.not_lt_zero _)
  | succ pos ih =>
    rw [prevBoundary] at h
    split at h
    · omega
    · rename_i hpos
      rcases Nat.lt_or_eq_of_le (Nat.le_of_lt_succ hq) with hlt | rfl
      · exact ih h hlt
      · exact Bool.eq_false_iff.mpr hpos

/-- The byte before a boundary starts no character just if it ends a longer one.

**Proof sketch.** The character that starts at the last boundary before the offset ends at the offset,
since its end is a boundary and since it keeps clear of the offset. -/
lemma isBoundary_pred_eq_false_iff (ht : t.Valid) (hpos : t.isBoundary pos = true) :
    t.isBoundary (pos - 1) = false ↔ ∃ c, t.charBefore pos = some c ∧ 1 < c.utf8Size := by
  rcases Nat.eq_zero_or_pos pos with rfl | h0
  · simp [isBoundary_zero, charBefore]
  · have hlt := prevBoundary_lt t h0
    have hle := le_size_of_isBoundary hpos
    obtain ⟨c, hc⟩ := exists_charAt ht (isBoundary_prevBoundary t pos) (by omega)
    have hbefore : t.charBefore pos = some c := by
      rw [charBefore, if_neg (by simp [hpos]; omega), hc]
    have hsize : t.prevBoundary pos + c.utf8Size = pos := by
      refine Nat.le_antisymm (add_utf8Size_le hc hpos hlt) (Nat.le_of_not_lt fun hgt => ?_)
      have hend := isBoundary_add_utf8Size ht hc
      rw [isBoundary_eq_false_of_prevBoundary_lt
        (Nat.lt_add_of_pos_right c.utf8Size_pos) hgt] at hend
      cases hend
    constructor
    · intro hpred
      refine ⟨c, hbefore, Nat.lt_of_le_of_ne c.utf8Size_pos fun hone => ?_⟩
      rw [show pos - 1 = t.prevBoundary pos by omega, isBoundary_prevBoundary] at hpred
      cases hpred
    · rintro ⟨c', hc', hlong⟩
      obtain rfl := Option.some.inj (hbefore.symm.trans hc')
      have hlast : t.prevBoundary pos < pos - 1 := by omega
      exact isBoundary_eq_false_of_prevBoundary_lt hlast (by omega)

/-- What precedes an edit is the same in both texts, and so are the boundaries there. -/
lemma Edited.isBoundary_eq {t₀ : Text} {added removed : Nat} (h : t.Edited t₀ pos added removed)
    (hq : q < pos) : t.isBoundary q = t₀.isBoundary q := by
  have h1 := h.le_size
  have h2 := h.le_size₀
  rw [Bool.eq_iff_iff, isBoundary_iff_byteIs h.valid, isBoundary_iff_byteIs h.valid₀,
    byteIs_congr (h.before q hq)]
  exact and_congr_left fun _ => ⟨fun _ => by omega, fun _ => by omega⟩

end Text

/-! ### Ranges -/

namespace Notification

/-- The offset from which on a notification of a change counts the document as written. -/
def changedFrom (pos : Nat) (newlineInserted : Bool) : Nat :=
  if newlineInserted then pos - 1 else pos

/-- At most the bytes in front of the offset count as written besides. -/
lemma changedFrom_le (pos : Nat) (newlineInserted : Bool) :
    changedFrom pos newlineInserted ≤ pos := by
  unfold changedFrom
  split <;> omega

/-- A notification of a change leads to a range if both ends of it are boundaries. A test whether the
document has become too short for the offset is made besides, but then the end is past the document.

**Proof sketch.** The branches of the program are compared with the condition. In the branch for a
document that is too short the end of the range would be past it, which is no boundary. -/
lemma editedRange_changed_eq (doc : Text) (oldLength pos : Nat) (newlineInserted : Bool) :
    (changed pos newlineInserted).editedRange doc oldLength =
      if doc.isBoundary (changedFrom pos newlineInserted) = true ∧
        doc.isBoundary (pos + (doc.size - oldLength)) = true
      then some (changedFrom pos newlineInserted, pos + (doc.size - oldLength)) else none := by
  unfold editedRange claimedRange
  dsimp only
  split
  · rename_i hshort
    simp only [Bool.and_eq_true, decide_eq_true_eq] at hshort
    rw [if_neg, Option.filter_none]
    rintro ⟨-, hend⟩
    have hle := Text.le_size_of_isBoundary hend
    omega
  · rw [Option.filter_some, ← changedFrom]
    simp only [Bool.and_eq_true, decide_eq_true_eq, and_assoc]
    refine if_congr ⟨fun h => h.2, fun h => ⟨Text.le_size_of_isBoundary h.2, h⟩⟩ rfl rfl

/-- All notifications of a change that are refused: the range would start or end inside a character or
past the document. -/
theorem editedRange_changed_eq_none_iff (doc : Text) (oldLength pos : Nat) (newlineInserted : Bool) :
    (changed pos newlineInserted).editedRange doc oldLength = none ↔
      doc.isBoundary (changedFrom pos newlineInserted) = false ∨
        doc.isBoundary (pos + (doc.size - oldLength)) = false := by
  rw [editedRange_changed_eq, ite_eq_right_iff]
  simp only [reduceCtorEq, imp_false, not_and_or, Bool.not_eq_true]

end Notification

/-! ### Edits -/

namespace Edit

open Notification

variable {t : Text} {edit : Edit}

/-- A text comes from another one by an edit at boundaries. -/
lemma edited_textAfter (hv : t.Valid) (ha : edit.Admissible t) :
    (edit.textAfter t).Edited t edit.pos edit.added edit.removed := by
  obtain ⟨b', n, happly⟩ := exists_apply (b := .new t) ha
  obtain ⟨hedited, htext, -⟩ := edited_of_apply (b := .new t) hv ha happly
  exact htext ▸ hedited.text

/-- The ends of an edit are boundaries before it. -/
lemma Admissible.isBoundary (ha : edit.Admissible t) :
    t.isBoundary edit.pos = true ∧ t.isBoundary (edit.pos + edit.removed) = true := by
  cases edit with
  | insert pos u announcement => exact ⟨ha.2, ha.2⟩
  | remove pos length announcement => exact ha

/-- **True notifications of a change.** A text is inserted into a valid text, or bytes are removed from
it, at boundaries, and a notification says that something has changed there. It is refused just if it says
that a line was broken and the character before the offset has more than one byte. Otherwise it leads to
the bytes that the edit has written, and with the flag to the byte before them.

And no notification of a change whatsoever is refused but for one reason: that the range does not start
at a boundary of the document, or that it does not end at one.

**Proof sketch.** An edit puts bytes in or takes bytes away, so the difference of the lengths is what it
has put in, and the end of the range is the end of the edit. The start is a boundary of the new text just
if it is one of the old text. -/
theorem editedRange_changed (hv : t.Valid) (ha : edit.Admissible t) (newlineInserted : Bool) :
    ((changed edit.pos newlineInserted).editedRange (edit.textAfter t) t.size = none ↔
      newlineInserted = true ∧ ∃ c, t.charBefore edit.pos = some c ∧ 1 < c.utf8Size) ∧
    (∀ first last, (changed edit.pos newlineInserted).editedRange (edit.textAfter t) t.size =
        some (first, last) →
      first = changedFrom edit.pos newlineInserted ∧ first ≤ edit.pos ∧
        last = edit.pos + edit.added) ∧
    ∀ doc oldLength pos newlineInserted,
      (changed pos newlineInserted).editedRange doc oldLength = none ↔
        doc.isBoundary (changedFrom pos newlineInserted) = false ∨
          doc.isBoundary (pos + (doc.size - oldLength)) = false := by
  have hedited := edited_textAfter hv ha
  have hgrown : (edit.textAfter t).size - t.size = edit.added := by
    have hsize := hedited.size_eq
    rcases hedited.oneWay with h | h <;> omega
  obtain ⟨hpos, hstop⟩ := ha.isBoundary
  have hend := hedited.isBoundary_stop hstop
  -- only the start that is widened by one byte can lie inside a character
  have hstart : (edit.textAfter t).isBoundary (changedFrom edit.pos newlineInserted) = false ↔
      newlineInserted = true ∧ t.isBoundary (edit.pos - 1) = false := by
    cases newlineInserted with
    | false => simp [changedFrom, hedited.isBoundary_start hpos]
    | true =>
      simp only [changedFrom, if_true, true_and]
      rcases Nat.eq_zero_or_pos edit.pos with h0 | h0
      · simp [h0, Text.isBoundary_zero]
      · rw [hedited.isBoundary_eq (Nat.sub_one_lt_of_lt h0)]
  refine ⟨?_, fun first last hrange => ?_, editedRange_changed_eq_none_iff⟩
  · rw [editedRange_changed_eq_none_iff, hgrown, hend, hstart, Text.isBoundary_pred_eq_false_iff hv hpos]
    simp
  · rw [editedRange_changed_eq, hgrown] at hrange
    obtain ⟨-, hrange⟩ := Option.ite_none_right_eq_some.mp hrange
    cases hrange
    exact ⟨rfl, changedFrom_le _ _, rfl⟩

/-- A line is broken behind a character of two bytes. -/
theorem editedRange_changed_umlaut :
    (insert 2 (Text.ofString "\n") (.changed true)).Admissible (Text.ofString "é") ∧
      (changed 2 true).editedRange (Text.ofString "é\n") 2 = none ∧
      (changed 2 false).editedRange (Text.ofString "é\n") 2 ≠ none := by
  have ha : (insert 2 (Text.ofString "\n") (.changed true)).Admissible (Text.ofString "é") :=
    ⟨Text.valid_ofString _, by decide +kernel⟩
  have htext : (insert 2 (Text.ofString "\n") (.changed true)).textAfter (Text.ofString "é") =
      Text.ofString "é\n" := by
    decide +kernel
  have hbefore : (Text.ofString "é").charBefore 2 = some 'é' := by decide +kernel
  obtain ⟨hrefused, -⟩ := editedRange_changed (Text.valid_ofString "é") ha true
  obtain ⟨haccepted, -⟩ := editedRange_changed (Text.valid_ofString "é") ha false
  rw [htext] at hrefused haccepted
  refine ⟨ha, hrefused.mpr ⟨rfl, 'é', hbefore, by decide⟩, fun hnone => ?_⟩
  cases (haccepted.mp hnone).1

/-- Not every true notification of a change leads to a range with the written bytes in it: the same break
of a line. -/
theorem refused_change_umlaut :
    ¬ ∀ (t : Text) (edit : Edit) (newlineInserted : Bool), t.Valid → edit.Admissible t →
      ∃ first last, (changed edit.pos newlineInserted).editedRange (edit.textAfter t) t.size =
        some (first, last) ∧ first ≤ edit.pos ∧ edit.pos + edit.added ≤ last := by
  intro h
  obtain ⟨first, last, hrange, -⟩ := h (Text.ofString "é")
    (insert 2 (Text.ofString "\n") (.changed true)) true (Text.valid_ofString _)
    ⟨Text.valid_ofString _, by decide +kernel⟩
  have hnone : (changed 2 true).editedRange ((insert 2 (Text.ofString "\n") (.changed true)).textAfter
      (Text.ofString "é")) (Text.ofString "é").size = none := by
    decide +kernel
  cases hnone.symm.trans hrange

end Edit

end LexPaint
