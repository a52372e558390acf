import LexPaint.Proofs.EditRuns

set_option relaxedAutoImplicit false
set_option autoImplicit false

/-!
# The window of an announced edit

A buffer announces each edit by the notification that it returns. From this, from the new text and from
the old length, the highlighter computes a window: which lines to lex again, and how the offsets behind
them have moved. The old text is gone by then. Here the window is compared with it.

## Main definitions

* `EditWindow.Matches`: a window that is right about two texts.

## Main results

* `EditWindow.matches_of_around`: a window around full lines with the edit in them is right.
* `Edit.window_of_apply`: every edit at boundaries leads to a window, and the window is right.
-/

namespace LexPaint

/-! ### Windows that are right -/

/-- The window is right about an edit of `t₀` that gives `t`. The texts agree before the window, and
what follows it in `t` followed its old end in `t₀`. It cuts both texts where lines start and end, and
it surrounds the bytes that the edit has put in or taken away. An offset behind it is sent to the offset
to which the edit has moved the byte there. -/
structure EditWindow.Matches (w : EditWindow) (t t₀ : Text) (pos added removed : Nat) : Prop where
  before_eq : t.between 0 w.start = t₀.between 0 w.start
  after_eq : t.between w.stop t.size = t₀.between w.oldStop t₀.size
  startsLine : t.StartsLine w.start
  startsLine₀ : t₀.StartsLine w.start
  endsLine : t.EndsLine w.stop
  endsLine₀ : t₀.EndsLine w.oldStop
  start_le_oldStop : w.start ≤ w.oldStop
  start_le : w.start ≤ pos
  le_stop : pos + added ≤ w.stop
  le_oldStop : pos + removed ≤ w.oldStop
  shift_eq : ∀ q, w.oldStop ≤ q →
    w.shift q = .ok (q - removed + added) ∧ t.byteAt (q - removed + added) = t₀.byteAt q

namespace EditWindow

variable {w : EditWindow} {t t₀ : Text} {pos added removed : Nat}

namespace Around

/-- The line on which the section starts has started there before the edit. -/
lemma startsLine₀ (h : w.Around t t₀ pos added removed) : t₀.StartsLine w.start := by
  have hle := h.start_le
  rcases h.startsLine with h0 | ⟨h0, hline⟩
  · exact .inl h0
  · rw [h.edited.before (w.start - 1) (by omega)] at hline
    exact .inr ⟨h0, hline⟩

/-- The line on which the section ends has ended before the edit where the window says.

**Proof sketch.** The section ends with the text or at a newline. What stands there has stood at the
old end before the edit. -/
lemma endsLine₀ (h : w.Around t t₀ pos added removed) : t₀.EndsLine w.oldStop := by
  have hsize := h.edited.size_eq
  have hold := h.oldStop_eq
  have hends := Text.endsLine_lineEnd t (pos + added)
  rw [← h.stop_eq] at hends
  rcases hends with hstop | hline
  · exact .inl (by omega)
  · have hafter := h.byteAt_stop_add 0
    rw [Nat.add_zero, Nat.add_zero, hline] at hafter
    exact .inr hafter.symm

end Around

/-- A window around full lines with the edit in them is right about the edit.

**Proof sketch.** The bytes before the section stand before the edit as well, and those behind it
have moved by as much as the text has grown. So have the offsets behind the section. -/
theorem matches_of_around (h : w.Around t t₀ pos added removed) :
    w.Matches t t₀ pos added removed := by
  have hstart := h.start_le
  have hstop := h.le_stop
  have hstop' := h.stop_le
  have hold := h.oldStop_eq
  have hsize := h.edited.size_eq
  refine ⟨?_, ?_, h.startsLine, h.startsLine₀, ?_, h.endsLine₀, by omega, hstart, hstop, by omega,
    fun q hq => ⟨?_, ?_⟩⟩
  · refine Text.ext_byteAt fun i => ?_
    rw [Text.byteAt_between, Text.byteAt_between, Nat.zero_add]
    split
    · exact h.edited.before i (by omega)
    · rfl
  · refine Text.ext_byteAt fun i => ?_
    rw [Text.byteAt_between, Text.byteAt_between, h.byteAt_stop_add i]
    congr 1
    simp only [eq_iff_iff]
    omega
  · rw [h.stop_eq]
    exact Text.endsLine_lineEnd t _
  · rw [shift_of_le hq]
    congr 1
    omega
  · have := h.byteAt_stop_add (q - w.oldStop)
    rwa [Nat.add_sub_cancel' hq, show w.stop + (q - w.oldStop) = q - removed + added by omega] at this

/-- The lines around a range that ends with the edit lead to a window. -/
lemma exists_of_lines (h : t.Edited t₀ pos added removed) {s : Section}
    (hstart : s.start ≤ pos) (hstop : pos + added ≤ s.stop) (hle : s.stop ≤ t.size) :
    ∃ w, ofSection? s t₀.size t.size = some w := by
  have hsize := h.size_eq
  unfold ofSection?
  rw [if_pos hle]
  dsimp only
  rw [if_pos (by omega), if_pos (by omega)]
  exact ⟨_, rfl⟩

end EditWindow

/-! ### Requests -/

namespace Highlighter

variable {profile : Profile} {oldLength first last : Nat} {doc : Buffer} {n : Notification}
variable {s : Section} {w : EditWindow}

/-- A highlighter in use that knows the length of the document serves an edit locally if it can. -/
lemma highlightEdit_eq (h : Highlighter) (hp : h.profile = some profile)
    (hold : h.lastLength = some oldLength) (hinc : h.config.incremental = true) :
    h.highlightEdit doc n = h.serveEdit profile oldLength doc n := by
  simp only [highlightEdit, hp, hold, hinc]

/-- Where the notification leads to a window, the lines of the window are repainted. -/
lemma serveEdit_eq (h : Highlighter) (profile : Profile)
    (hrange : n.editedRange doc.text oldLength = some (first, last))
    (hlines : Section.lines doc.text first last = .ok s)
    (hw : EditWindow.ofSection? s oldLength doc.text.size = some w) :
    h.serveEdit profile oldLength doc n = do
      let (kind, painter, doc') ← h.painter.edit profile doc s w
      return ⟨kind, none, ← { h with painter }.finish kind doc.size, doc'⟩ := by
  rw [serveEdit]
  simp only [Buffer.size, hrange, hlines, bind, Except.bind, hw]

end Highlighter

/-! ### Edits -/

namespace Edit

variable {b b' : Buffer} {n : Notification} {edit : Edit}

/-- A buffer makes every edit that keeps to the boundaries of its text. -/
lemma exists_apply (ha : edit.Admissible b.text) : ∃ b' n, edit.apply b = .ok (b', n) := by
  cases edit with
  | insert pos u announcement =>
    obtain ⟨⟨b', n⟩, happly, -⟩ := Buffer.insert_ensures (u := u) ha.2
    exact ⟨b', n, happly⟩
  | remove pos length announcement =>
    obtain ⟨⟨b', n⟩, happly, -⟩ := Buffer.remove_ensures ha.1 ha.2
    exact ⟨b', n, happly⟩

/-- Where a text was inserted, it is found.

**Proof sketch.** Byte by byte: what stands at an offset of the cut is the byte of the inserted text. -/
lemma between_insertText {t : Text} (u : Text) {pos : Nat} (hle : pos ≤ t.size) :
    (Buffer.insertText t pos u).between pos (pos + u.size) = u := by
  have hfront := Text.size_between t 0 hle
  refine Text.ext_byteAt fun i => ?_
  unfold Buffer.insertText
  rw [Text.byteAt_between]
  by_cases hi : i < u.size
  · rw [if_pos (by omega), Text.byteAt_append, if_pos (by rw [Text.size_append]; omega),
      Text.byteAt_append, if_neg (by omega), hfront]
    congr 1
    omega
  · rw [if_neg (by omega)]
    exact (Text.byteAt_eq_none_iff.mpr (by omega)).symm

/-- The notification that the buffer returns fits: the range that it leads to is the one that the edit
has written.

**Proof sketch.** By cases on the edit. The range of the notification that the buffer returns starts
and ends with the edit, and both are boundaries of the new text. -/
lemma editedRange_of_apply (hv : b.text.Valid) (ha : edit.Admissible b.text)
    (h : edit.apply b = .ok (b', n)) :
    n.editedRange b'.text b.text.size = some (edit.pos, edit.pos + edit.added) := by
  obtain ⟨⟨hedited, -, -⟩, htext, -⟩ := edited_of_apply hv ha h
  have hsize := hedited.size_eq
  have hle := hedited.le_size
  have hbounds : b'.text.isBoundary edit.pos = true ∧
      b'.text.isBoundary (edit.pos + edit.added) = true := by
    cases edit with
    | insert pos u announcement =>
      exact ⟨hedited.isBoundary_start ha.2, hedited.isBoundary_stop ha.2⟩
    | remove pos length announcement =>
      exact ⟨hedited.isBoundary_start ha.1, hedited.isBoundary_stop ha.2⟩
  have hclaimed : n.claimedRange b'.text b.text.size = some (edit.pos, edit.pos + edit.added) := by
    cases edit with
    | insert pos u announcement =>
      obtain ⟨-, rfl⟩ := (Buffer.insert_ensures ha.2).elim h
      simp only [Edit.pos, Edit.added, Edit.removed] at hsize hbounds ⊢
      have hslice := Text.slice_eq_ok (Nat.le_add_right pos u.size) hbounds.1 hbounds.2
      rw [htext, textAfter, between_insertText u (Text.le_size_of_isBoundary ha.2)] at hslice
      simp only [Notification.claimedRange]
      rw [if_neg (by simp; omega), htext, textAfter, hslice]
      exact if_pos rfl
    | remove pos length announcement =>
      obtain ⟨-, rfl⟩ := (Buffer.remove_ensures ha.1 ha.2).elim h
      simp only [Edit.pos, Edit.added, Edit.removed] at hsize ⊢
      simp only [Notification.claimedRange]
      rw [if_neg (by simp; omega), Nat.add_zero]
  rw [Notification.editedRange, hclaimed]
  exact Option.filter_eq_some_iff.mpr ⟨rfl, by simp [hle, hbounds.1, hbounds.2]⟩

/-- **The window of an edit is right.** A text is inserted into a valid text, or bytes are removed from
it, at boundaries. Then the notification that the buffer returns leads to a range with the written bytes
in it, the full lines around the range can be cut out, and they lead to a window that is right about the
old text and the new one. So a highlighter that knows the old length repaints these lines with this
window. It falls back to a full pass neither because of the notification nor because of the section.

**Proof sketch.** The ends of the edit are boundaries of the new text, so the range is accepted. The
lines around it end at or behind the edit, where both texts go on alike, and the old end of the section
lies as far from the end of the old text as its end from that of the new one. -/
theorem window_of_apply (hv : b.text.Valid) (ha : edit.Admissible b.text) :
    ∃ b' n first last s w, edit.apply b = .ok (b', n) ∧ b'.text = edit.textAfter b.text ∧
      n.editedRange b'.text b.text.size = some (first, last) ∧
      first ≤ edit.pos ∧ edit.pos + edit.added ≤ last ∧
      Section.lines b'.text first last = .ok s ∧
      EditWindow.ofSection? s b.text.size b'.text.size = some w ∧
      w.Matches b'.text b.text edit.pos edit.added edit.removed ∧
      ∀ (h : Highlighter) (profile : Profile), h.profile = some profile →
        h.lastLength = some b.size → h.config.incremental = true →
        h.highlightEdit b' n = do
          let (kind, painter, doc) ← h.painter.edit profile b' s w
          return ⟨kind, none, ← { h with painter }.finish kind b'.size, doc⟩ := by
  obtain ⟨b', n, happly⟩ := exists_apply ha
  obtain ⟨hedited, htext, htells⟩ := edited_of_apply hv ha happly
  have hrange := editedRange_of_apply hv ha happly
  obtain ⟨s, hlines, hlies, hstart, hstop⟩ :=
    Section.lines_ensures hedited.text.valid edit.pos (edit.pos + edit.added)
  have hle := hedited.text.le_size
  have hfirst := Text.lineStart_le b'.text (min edit.pos b'.text.size)
  have hlast : min (max (edit.pos + edit.added) edit.pos) b'.text.size ≤ s.stop := by
    rw [hstop]
    exact Text.le_lineEnd (Nat.min_le_right _ _)
  obtain ⟨w, hw⟩ := EditWindow.exists_of_lines hedited.text (by omega) (by omega)
    (Text.le_size_of_isBoundary hlies.endsLine.isBoundary)
  obtain ⟨haround, -, -⟩ := EditWindow.around_of_tells hedited.text htells hrange hlines hw
  refine ⟨b', n, edit.pos, edit.pos + edit.added, s, w, happly, htext, hrange, Nat.le_refl _,
    Nat.le_refl _, hlines, hw, EditWindow.matches_of_around haround, fun h profile hp hold hinc => ?_⟩
  rw [h.highlightEdit_eq hp hold hinc]
  exact h.serveEdit_eq profile hrange hlines hw

/-- A word on two lines is inserted into the second one. The window covers both lines, and the
newline behind them has moved. -/
theorem window_of_apply_newline :
    ∃ b' n first last s, (Edit.insert 4 (Text.ofString "x\nß") .returned).apply
        (.new (Text.ofString "é\nab\ncd")) = .ok (b', n) ∧
      n.editedRange b'.text 8 = some (first, last) ∧
      Section.lines b'.text first last = .ok s ∧
      EditWindow.ofSection? s 8 b'.text.size = some ⟨3, 9, 5⟩ ∧
      EditWindow.Matches ⟨3, 9, 5⟩ b'.text (Text.ofString "é\nab\ncd") 4 4 0 := by
  have hv := Text.valid_ofString "é\nab\ncd"
  have ha : (insert 4 (Text.ofString "x\nß") .returned).Admissible
      (Buffer.new (Text.ofString "é\nab\ncd")).text :=
    ⟨Text.valid_ofString _, by decide +kernel⟩
  obtain ⟨b', n, first, last, s, w, happly, -, hrange, -, -, hlines, hw, hmatches, -⟩ :=
    window_of_apply hv ha
  have hrun : (do
      let edited ← (insert 4 (Text.ofString "x\nß") .returned).apply
        (.new (Text.ofString "é\nab\ncd"))
      let range := (edited.2.editedRange edited.1.text 8).getD (0, 0)
      let s ← Section.lines edited.1.text range.1 range.2
      demand (EditWindow.ofSection? s 8 edited.1.text.size = some (EditWindow.mk 3 9 5))
        .outOfRange) = .ok () := by
    decide +kernel
  have hsize : (Buffer.new (Text.ofString "é\nab\ncd")).text.size = 8 := by decide +kernel
  rw [hsize] at hrange hw
  simp only [happly, hrange, hlines, bind, Except.bind, Option.getD_some] at hrun
  have hwindow := of_decide_eq_true (demand_eq_ok_iff.mp hrun)
  obtain rfl := Option.some.inj (hw.symm.trans hwindow)
  exact ⟨b', n, first, last, s, happly, hrange, hlines, hw, hmatches⟩

end Edit

end LexPaint
