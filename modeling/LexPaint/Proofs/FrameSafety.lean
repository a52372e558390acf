import LexPaint.Pass.Basic
import LexPaint.Proofs.Ensures
import LexPaint.Proofs.Scans

set_option relaxedAutoImplicit false
set_option autoImplicit false

/-!
# Questions of a dialect always have an answer

A frame asks its dialect about offsets in the scope. The dialect sees the text of the scope only,
so the scope has to be the part of the document between its bounds, and the bounds have to be
boundaries. Then every question about a boundary of the scope has an answer.

## Main definitions

* `Frame.WellFormed`: the scope lies in the document as the frame says.

## Main results

* `Frame.wellFormed_document`, `Frame.enter_ensures`: the frames that come up.
* `Frame.accepts_ensures`, `Frame.behindLineComment_ensures`: the questions.
-/

namespace LexPaint

variable {f : Frame} {pos lo hi : Nat}

namespace Text

variable {t : Text}

/-- A range between boundaries is accepted. -/
lemma checkRange_ensures (h : lo ≤ hi) (hlo : t.isBoundary lo = true)
    (hhi : t.isBoundary hi = true) : Ensures (t.checkRange lo hi) fun _ => True :=
  ⟨(), checkRange_eq_ok h hlo hhi, trivial⟩

/-- A range of bytes inside the text is accepted. -/
lemma checkBytes_ensures (h : lo ≤ hi) (hhi : hi ≤ t.size) :
    Ensures (t.checkBytes lo hi) fun _ => True :=
  ⟨(), checkBytes_eq_ok h hhi, trivial⟩

/-- A part between boundaries can be cut out. -/
lemma slice_ensures (h : lo ≤ hi) (hlo : t.isBoundary lo = true) (hhi : t.isBoundary hi = true) :
    Ensures (t.slice lo hi) fun part => part = t.between lo hi :=
  ⟨_, slice_eq_ok h hlo hhi, rfl⟩

end Text

/-- The scope of the frame is the part of a valid document between two boundaries. -/
structure Frame.WellFormed (f : Frame) : Prop where
  valid : f.text.Valid
  ordered : f.lo ≤ f.hi
  loBoundary : f.text.isBoundary f.lo = true
  hiBoundary : f.text.isBoundary f.hi = true
  scope_eq : f.scope = f.text.between f.lo f.hi

namespace Frame

/-- The whole of a text is the text. -/
lemma between_whole (t : Text) : t.between 0 t.size = t := by
  refine Text.ext_byteAt fun i => ?_
  rw [Text.byteAt_between, Nat.zero_add]
  split
  · rfl
  · rename_i h
    exact (Text.byteAt_eq_none_iff.mpr (Nat.le_of_not_lt h)).symm

/-- A valid document is a scope. -/
lemma wellFormed_document {t : Text} (ht : t.Valid) (d : Dialect) :
    (document t d).WellFormed where
  valid := ht
  ordered := Nat.zero_le _
  loBoundary := Text.isBoundary_zero t
  hiBoundary := Text.isBoundary_size t
  scope_eq := (between_whole t).symm

namespace WellFormed

/-- A scope ends inside the document. -/
lemma hi_le (hf : f.WellFormed) : f.hi ≤ f.text.size :=
  Text.le_size_of_isBoundary hf.hiBoundary

/-- The text of a scope is as long as the scope. -/
lemma size_scope (hf : f.WellFormed) : f.scope.size = f.hi - f.lo := by
  rw [hf.scope_eq, Text.size_between f.text f.lo hf.hi_le]

/-- The boundaries of the scope are those of the document that lie in it. -/
lemma isBoundary_scope (hf : f.WellFormed) {i : Nat} (h : f.lo + i ≤ f.hi) :
    f.scope.isBoundary i = f.text.isBoundary (f.lo + i) := by
  rw [hf.scope_eq, Text.isBoundary_between hf.loBoundary hf.hiBoundary h]

end WellFormed

/-- A part of the scope between two boundaries can be entered, and is a frame like the outer
one. -/
lemma enter_ensures (hf : f.WellFormed) (hlo : f.text.isBoundary lo = true)
    (hhi : f.text.isBoundary hi = true) (h : lo ≤ hi) (d : Dialect) :
    Ensures (f.enter lo hi d) fun g =>
      g.WellFormed ∧ g.text = f.text ∧ g.lo = lo ∧ g.hi = hi ∧ g.dialect = d ∧
        g.outermost = false := by
  unfold enter
  rw [Text.slice_eq_ok h hlo hhi]
  exact .pure ⟨⟨hf.valid, h, hlo, hhi, rfl⟩, rfl, rfl, rfl, rfl, rfl⟩

end Frame

/-! ### Questions -/

/-- A filter has an answer about every boundary. -/
lemma MarkFilter.admits?_ensures (filter : MarkFilter) {t : Text} (h : t.isBoundary pos = true) :
    Ensures (filter.admits? t pos) fun _ => True := by
  have hle := Text.le_size_of_isBoundary h
  cases filter with
  | everywhere => exact .pure trivial
  | notBehindDollar =>
    refine .bind (Text.checkBytes_ensures (Nat.zero_le _) hle) fun _ _ => .pure trivial
  | notAttribute =>
    exact .bind (Text.checkRange_ensures hle h (Text.isBoundary_size t))
      fun _ _ => .pure trivial

/-- Every test of a candidate at a boundary has an outcome.

**Proof sketch.** By cases on the test. What it cuts out of the text lies between the offset and the
end. -/
lemma CandidateTest.holds_ensures (test : CandidateTest) {t : Text}
    (h : t.isBoundary pos = true) : Ensures (test.holds t pos) fun _ => True := by
  have hle := Text.le_size_of_isBoundary h
  cases test with
  | lastOnLine =>
    exact .bind (Text.checkRange_ensures hle h (Text.isBoundary_size t))
      fun _ _ => .pure trivial
  | filteredMark filter => exact filter.admits?_ensures h
  | nameFollows => exact .pure trivial
  | startsLine => exact .pure trivial
  | unquoted => exact .pure trivial
  | operatorPlace =>
    exact .bind (Text.checkRange_ensures (Nat.zero_le _) (Text.isBoundary_zero t) h)
      fun _ _ => .pure trivial

/-- A dialect has an answer about every boundary. -/
lemma Dialect.accepts_ensures (d : Dialect) {t : Text} (h : t.isBoundary pos = true)
    (condition : Condition) : Ensures (d.accepts t pos condition) fun _ => True := by
  unfold Dialect.accepts
  split
  · exact CandidateTest.holds_ensures _ h
  · exact .pure trivial

namespace Frame

/-- The dialect has an answer about every boundary of the scope. -/
lemma accepts_ensures (hf : f.WellFormed) (hlo : f.lo ≤ pos) (hhi : pos ≤ f.hi)
    (h : f.text.isBoundary pos = true) (condition : Condition) :
    Ensures (f.accepts pos condition) fun _ => True := by
  refine .bind (.minus hlo) fun d hd => ?_
  have hb : f.scope.isBoundary d = true := by
    rw [hf.isBoundary_scope (by omega), hd, Nat.add_sub_cancel' hlo]
    exact h
  exact f.dialect.accepts_ensures hb condition

/-- Whether an offset of the scope stands behind a line comment has an answer. -/
lemma behindLineComment_ensures (hlo : f.lo ≤ pos) :
    Ensures (f.behindLineComment pos) fun _ => True :=
  .bind (.minus hlo) fun _ _ => .pure trivial

end Frame

end LexPaint
