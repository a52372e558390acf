import LexPaint.Proofs.HeredocTwins
import LexPaint.Proofs.QuoteScans
import LexPaint.Proofs.SetInvariants

set_option relaxedAutoImplicit false
set_option autoImplicit false

/-!
# What the scan for heredocs finds

The scan for heredocs takes up the openers of a document one after the other. An opener is ignored for one
of three reasons: a comment mark on its line, a block comment around it, or a test of the dialect.
Otherwise its body is looked for line by line, and the scan goes on behind the body. So it never looks at
the openers in a body, nor at those that follow on the line of an opener. All others it does look at.

## Main definitions

* `HeredocRules.BodyEnds`: where a body ends.
* `Dialect.IgnoresOpener`: the reasons to ignore an opener.
* `Frame.HeredocsRead`: what the scan has found in front of an offset.

## Main results

* `HeredocRules.bodyEnds_of_bodyEnd`: the walk over the lines finds the first one that closes the heredoc.
* `Frame.heredocs_spec`: what the scan finds.
* `Painter.full_maps_heredocs`: the heredocs of Perl and of PHP code after a full pass.
-/

namespace LexPaint

/-! ### Openers -/

namespace Text

variable {t : Text} {pos q : Nat}

/-- Offsets up to the end of a line have this end in common.

**Proof sketch.** Neither end can come before the other, as the bytes between an offset and the end
of its line are no newlines. -/
lemma lineEnd_eq_of_le (h : pos ≤ q) (hq : q ≤ t.lineEnd pos) : t.lineEnd q = t.lineEnd pos := by
  have hsize := t.lineEnd_le_size pos
  have hsize' := t.lineEnd_le_size q
  have hle : q ≤ t.lineEnd q := le_lineEnd (by omega)
  refine Nat.le_antisymm (Nat.le_of_not_lt fun hlt => ?_) (Nat.le_of_not_lt fun hlt => ?_)
  · rcases t.endsLine_lineEnd pos with hend | hend
    · omega
    · exact byteAt_ne_newline_of_lt_lineEnd hq hlt hend
  · rcases t.endsLine_lineEnd q with hend | hend
    · omega
    · exact byteAt_ne_newline_of_lt_lineEnd (by omega) hlt hend

/-- Lines start in the text or at its end. -/
lemma StartsLine.le_size (h : t.StartsLine pos) : pos ≤ t.size := by
  rcases h with rfl | ⟨-, hline⟩
  · exact Nat.zero_le _
  · have := lt_size_of_byteAt hline
    omega

/-- No line starts between the start of a line and the newline that ends it. -/
lemma not_startsLine_of_le_lineEnd (h : pos < q) (hq : q ≤ t.lineEnd pos) : ¬ t.StartsLine q := by
  rintro (rfl | ⟨-, hline⟩)
  · omega
  · exact byteAt_ne_newline_of_lt_lineEnd (Nat.le_sub_one_of_lt h) (by omega) hline

end Text

namespace HeredocRules

variable {t : Text} {r : HeredocRules} {o : HeredocOpener} {pos : Nat}

/-- The search for the next opener skips none.

**Proof sketch.** Induction along the search. -/
lemma openerAt_eq_none_of_nextOpener (h : r.nextOpener t pos = some o) {j : Nat} (hj : pos ≤ j)
    (hlt : j < o.start) : r.openerAt t j = none := by
  fun_induction nextOpener r t pos with
  | case1 pos hpos found hfound =>
    obtain rfl := Option.some.inj h
    have := (r.openerAt_bounds hfound).1
    omega
  | case2 pos hpos hnone ih =>
    rcases Nat.lt_or_eq_of_le hj with hj | rfl
    · exact ih h hj
    · exact hnone
  | case3 => cases h

/-- Where no next opener is found, there is none. -/
lemma openerAt_eq_none_of_nextOpener_eq_none (h : r.nextOpener t pos = none) {j : Nat} (hj : pos ≤ j) :
    r.openerAt t j = none := by
  fun_induction nextOpener r t pos with
  | case1 => cases h
  | case2 pos hpos hnone ih =>
    rcases Nat.lt_or_eq_of_le hj with hj | rfl
    · exact ih h hj
    · exact hnone
  | case3 pos hpos =>
    cases hat : r.openerAt t j with
    | none => rfl
    | some found =>
      have := r.openerAt_bounds hat
      omega

/-- A tag that spans a range with bytes in it is not empty. -/
lemma tagBetween_ne_nil {lo hi : Nat} (h : lo < hi) (hhi : hi ≤ t.size) : tagBetween t lo hi ≠ [] := by
  intro hnil
  have hsize := Text.size_between t lo hhi
  have hlength : (tagBetween t lo hi).length = (t.between lo hi).size := Array.length_toList
  rw [hnil] at hlength
  simp only [List.length_nil] at hlength
  omega

/-- A tag behind an opener is not empty, quoted or not. -/
lemma tagAt_ne_nil {tag : Mark} {stop : Nat} (h : tagAt t pos = some (tag, stop)) : tag ≠ [] := by
  unfold tagAt at h
  split at h
  · rw [Option.bind_eq_bind, Option.bind_eq_some_iff] at h
    obtain ⟨last, hlast, h⟩ := h
    obtain ⟨hlt, hle⟩ := tagEnd_bounds hlast
    split at h
    · cases h
      exact tagBetween_ne_nil hlt hle
    · cases h
  · rw [Option.bind_eq_bind, Option.bind_eq_some_iff] at h
    obtain ⟨last, hlast, h⟩ := h
    obtain ⟨hlt, hle⟩ := tagEnd_bounds hlast
    cases h
    exact tagBetween_ne_nil hlt hle

/-- The tag of an opener is not empty. -/
lemma tag_ne_nil_of_openerAt (h : r.openerAt t pos = some o) : o.tag ≠ [] := by
  unfold openerAt at h
  split at h
  · dsimp only at h
    rw [Option.bind_eq_bind, Option.bind_eq_some_iff] at h
    obtain ⟨⟨tag, stop⟩, htag, h⟩ := h
    cases h
    exact tagAt_ne_nil htag
  · cases h

end HeredocRules

/-- Where the body of a heredoc starts: on the line behind the opener, or at the end of the text if there
is no such line. -/
def HeredocOpener.bodyStart (o : HeredocOpener) (t : Text) : Nat :=
  min (t.lineEnd o.start + 1) t.size

/-- The openers of these rules keep to their lines: they are made of bytes other than the newline. -/
structure HeredocRules.KeepsToLine (r : HeredocRules) : Prop where
  opener : r.opener.IsPlain
  flag : r.indentFlag ≠ some newline

namespace HeredocRules.KeepsToLine

variable {t : Text} {r : HeredocRules} {o : HeredocOpener} {pos : Nat}

/-- An opener ends on the line on which it starts. -/
lemma stop_le_lineEnd (hr : r.KeepsToLine) (ht : t.Valid) (h : r.openerAt t pos = some o) :
    o.stop ≤ t.lineEnd pos := by
  obtain ⟨-, hlt, hsize, -⟩ := r.openerAt_bounds h
  have hle : pos ≤ t.lineEnd pos := Text.le_lineEnd (by omega)
  rcases t.endsLine_lineEnd pos with hend | hend
  · omega
  · have hshares := Text.shares_self ht hend
    exact Nat.le_of_lt_succ ((hshares.openerAt_eq (Nat.lt_succ_of_le hle) hr.opener hr.flag).2 o h)

/-- The body starts on the line behind the one on which the opener ends. -/
lemma bodyStart_eq (hr : r.KeepsToLine) (ht : t.Valid) (h : r.openerAt t pos = some o) :
    min (t.lineEnd o.stop + 1) t.size = o.bodyStart t := by
  obtain ⟨hstart, hlt, -⟩ := r.openerAt_bounds h
  have hline := hr.stop_le_lineEnd ht h
  rw [HeredocOpener.bodyStart, hstart, Text.lineEnd_eq_of_le (Nat.le_of_lt hlt) hline]

/-- The body starts behind the opener. -/
lemma stop_le_bodyStart (hr : r.KeepsToLine) (ht : t.Valid) (h : r.openerAt t pos = some o) :
    o.stop ≤ o.bodyStart t := by
  obtain ⟨hstart, -, hsize, -⟩ := r.openerAt_bounds h
  have hline := hr.stop_le_lineEnd ht h
  rw [HeredocOpener.bodyStart, hstart]
  exact Nat.le_min.mpr ⟨by omega, hsize⟩

end HeredocRules.KeepsToLine

/-- A body starts where a line starts, or it is empty. -/
lemma HeredocOpener.startsLine_bodyStart (o : HeredocOpener) (t : Text) :
    t.StartsLine (o.bodyStart t) ∨ t.size ≤ o.bodyStart t := by
  unfold bodyStart
  rcases t.endsLine_lineEnd o.start with hend | hend
  · exact .inr (by omega)
  · have hfits := Text.lt_size_of_byteAt hend
    rw [Nat.min_eq_left (by omega)]
    exact .inl (.inr ⟨Nat.succ_pos _, hend⟩)

/-! ### Bodies -/

namespace HeredocRules

variable {t : Text} {r : HeredocRules} {o : HeredocOpener} {start line next stop : Nat}

/-- What closes a heredoc is its tag, and the offset is just past it.

**Proof sketch.** The line without its carriage return and its indentation is compared with the tag,
so the tag is what stands before the end that is answered. -/
lemma hasAt_of_terminatorEnd {part : Text} {tag : Mark} {indented : Bool} {offset : Nat}
    (h : r.terminatorEnd part tag indented = some offset) :
    tag.length ≤ offset ∧ part.hasAt (offset - tag.length) tag = true := by
  unfold terminatorEnd at h
  dsimp only at h
  generalize (if part.byteIs (· == 0x0D) (part.size - 1) then part.size - 1 else part.size) = last at h
  split at h
  · generalize (if indented then part.skipBlanks 0 last else 0) = first at h
    split at h
    · rename_i hcloses
      obtain rfl := Option.some.inj h
      rw [Bool.and_eq_true, beq_iff_eq] at hcloses
      refine ⟨by omega, ?_⟩
      rw [← hcloses.1, Nat.add_sub_cancel]
      exact hcloses.2
    · cases h
  · split at h
    · rename_i hcloses
      rw [Bool.and_eq_true] at hcloses
      split at h
      · cases h
      · obtain rfl := Option.some.inj h
        refine ⟨Nat.le_add_left _ _, ?_⟩
        rw [Nat.add_sub_cancel]
        exact hcloses.2
    · cases h

/-- The line that starts at an offset closes the heredoc, and its tag ends at `stop`. -/
def ClosesAt (r : HeredocRules) (t : Text) (o : HeredocOpener) (line stop : Nat) : Prop :=
  t.StartsLine line ∧ ∃ offset, stop = line + offset ∧
    r.terminatorEnd (t.between line (t.lineEnd line)) o.tag o.indented = some offset

/-- The body of a heredoc starts at an offset and ends just past the tag on the first line from there on
that closes the heredoc, or with the text if no line does. -/
inductive BodyEnds (r : HeredocRules) (t : Text) (o : HeredocOpener) (start : Nat) : Nat → Prop
  | closed {line stop : Nat} (hle : start ≤ line) (hcloses : r.ClosesAt t o line stop)
    (hfirst : ∀ earlier, start ≤ earlier → earlier < line → ∀ stop', ¬ r.ClosesAt t o earlier stop') :
    BodyEnds r t o start stop
  | unclosed (hnone : ∀ line, start ≤ line → ∀ stop', ¬ r.ClosesAt t o line stop') :
    BodyEnds r t o start t.size

/-- The tag stands in the line that it closes, and the body ends with it.

**Proof sketch.** The bytes of a line are bytes of the text, moved by the start of the line. -/
lemma ClosesAt.hasAt (h : r.ClosesAt t o line stop) :
    line + o.tag.length ≤ stop ∧ stop ≤ t.lineEnd line ∧ t.hasAt (stop - o.tag.length) o.tag = true := by
  obtain ⟨hstart, offset, rfl, hcloses⟩ := h
  obtain ⟨hle, hat⟩ := hasAt_of_terminatorEnd hcloses
  have hend : line ≤ t.lineEnd line := Text.le_lineEnd hstart.le_size
  have hoffset := r.terminatorEnd_le hcloses
  rw [Text.size_between t line (t.lineEnd_le_size line)] at hoffset
  refine ⟨by omega, by omega, ?_⟩
  rw [Text.hasAt_iff] at hat ⊢
  intro i hi
  have hbyte := hat i hi
  rw [Text.byteAt_between, if_pos (by omega)] at hbyte
  rw [← hbyte]
  congr 1
  omega

/-- An empty line closes nothing, as tags are not empty. -/
lemma not_closesAt_of_size_le (htag : o.tag ≠ []) (hline : t.size ≤ line) : ¬ r.ClosesAt t o line stop := by
  intro h
  obtain ⟨hle, hend, -⟩ := h.hasAt
  have hpos : 0 < o.tag.length := List.length_pos_iff.mpr htag
  have := t.lineEnd_le_size line
  omega

namespace BodyEnds

/-- A body ends where it starts or later. -/
lemma le_stop (h : r.BodyEnds t o start stop) (hstart : start ≤ t.size) : start ≤ stop := by
  cases h with
  | closed hle hcloses hfirst =>
    have := hcloses.hasAt.1
    omega
  | unclosed hnone => exact hstart

/-- Where lines that do not close the heredoc precede, the body ends at the same place.

**Proof sketch.** By cases on how the body ends. A line is one of those in front or one of the rest,
and neither closes the heredoc too early. -/
lemma of_next (h : r.BodyEnds t o next stop) (hle : start ≤ next)
    (hnone : ∀ line, start ≤ line → line < next → ∀ stop', ¬ r.ClosesAt t o line stop') :
    r.BodyEnds t o start stop := by
  cases h with
  | closed hnext hcloses hfirst =>
    refine .closed (Nat.le_trans hle hnext) hcloses fun earlier h1 h2 => ?_
    rcases Nat.lt_or_ge earlier next with hlt | hge
    · exact hnone earlier h1 hlt
    · exact hfirst earlier hge h2
  | unclosed hrest =>
    refine .unclosed fun line hline => ?_
    rcases Nat.lt_or_ge line next with hlt | hge
    · exact hnone line hline hlt
    · exact hrest line hge

end BodyEnds

/-- **The walk over the lines.** In a document the body of a heredoc ends where the first line that closes
the heredoc says.

**Proof sketch.** Induction on what is left of the text. If the line at hand does not close the heredoc,
then no line starts up to the one behind its newline, where the walk goes on. -/
theorem bodyEnds_of_bodyEnd {f : Frame} (hspans : f.Spans) (htag : o.tag ≠ [])
    (hline : f.text.StartsLine line ∨ f.text.size ≤ line) (h : f.bodyEnd r o line = .ok stop) :
    r.BodyEnds f.text o line stop := by
  induction hn : f.text.size - line using Nat.strongRecOn generalizing line with
  | _ n ih =>
    rw [Frame.bodyEnd, hspans.hi_eq] at h
    split at h
    · rename_i hlt
      have hstarts : f.text.StartsLine line := hline.resolve_right (by omega)
      have hend : line ≤ f.text.lineEnd line := Text.le_lineEnd (by omega)
      rw [Nat.min_eq_left (f.text.lineEnd_le_size line)] at h
      obtain ⟨part, hpart, h⟩ := bind_eq_ok.mp h
      obtain ⟨-, -, hpart⟩ := bind_eq_ok.mp hpart
      cases hpart
      split at h
      · rename_i offset hcloses
        cases h
        exact .closed (Nat.le_refl _) ⟨hstarts, offset, rfl, hcloses⟩ fun _ _ _ => by omega
      · rename_i hopen
        rw [Nat.max_eq_left (by omega)] at h
        -- where the walk goes on
        have hnext : f.text.StartsLine (f.text.lineEnd line + 1) ∨
            f.text.size ≤ f.text.lineEnd line + 1 := by
          rcases f.text.endsLine_lineEnd line with hend | hend
          · exact .inr (by omega)
          · exact .inl (.inr ⟨Nat.succ_pos _, hend⟩)
        refine (ih _ (by omega) hnext h rfl).of_next (by omega) fun other h1 h2 stop' hcloses => ?_
        rcases Nat.lt_or_eq_of_le h1 with h1 | rfl
        · exact Text.not_startsLine_of_le_lineEnd h1 (Nat.le_of_lt_succ h2) hcloses.1
        · obtain ⟨-, offset, -, hcloses⟩ := hcloses
          rw [hopen] at hcloses
          cases hcloses
    · rename_i hge
      cases h
      exact .unclosed fun other hother stop' => not_closesAt_of_size_le htag (by omega)

/-- A heredoc of a text: an opener, and the body that belongs to it. -/
def Maps (r : HeredocRules) (t : Text) (found : Interval × Interval) : Prop :=
  ∃ o bodyStop, r.openerAt t o.start = some o ∧ r.BodyEnds t o (o.bodyStart t) bodyStop ∧
    found = (⟨o.start, o.stop, .heredocTag⟩, ⟨o.bodyStart t, bodyStop, .heredoc⟩)

/-- An opener is not empty, and its body follows it. -/
lemma Maps.bounds {found : Interval × Interval} (h : r.Maps t found) (hr : r.KeepsToLine)
    (ht : t.Valid) : found.1.start < found.1.stop ∧ found.1.stop ≤ found.2.start ∧
      found.2.start ≤ found.2.stop := by
  obtain ⟨o, bodyStop, hat, hends, rfl⟩ := h
  exact ⟨(r.openerAt_bounds hat).2.1, hr.stop_le_bodyStart ht hat,
    hends.le_stop (Nat.min_le_right _ _)⟩

end HeredocRules

/-! ### The scan -/

/-- The reasons to ignore the opener of a heredoc: it stands behind a comment mark on its line, it lies in
a block comment, or the dialect does not accept it. -/
def Dialect.IgnoresOpener (d : Dialect) (t : Text) (pos : Nat) : Prop :=
  (d.behindLineMark t pos).isSome = true ∨ (d.inBlockComment t pos).isSome = true ∨
    d.accepts t pos .heredoc = .ok false

namespace Frame

variable {t : Text} {d : Dialect} {r : HeredocRules} {o : HeredocOpener} {pos last bodyStop : Nat}
variable {cursor : Option CommentCursor} {found : Array (Interval × Interval)}

/-- The frame of a document spans its text. -/
lemma spans_document (t : Text) (d : Dialect) : (document t d).Spans :=
  ⟨rfl, rfl, rfl⟩

/-- The check of an opener refuses exactly those that are ignored, and leaves a cursor of the text.
**Proof sketch.** The three tests are made one after the other. For the block comment the cursor
answers as a new one does. -/
lemma refusesHeredoc_eq_ok (h : CursorOf t d cursor) {answer : Bool × Option CommentCursor}
    (hr : (document t d).refusesHeredoc pos cursor = .ok answer) :
    (answer.1 = true ↔ d.IgnoresOpener t pos) ∧ CursorOf t d answer.2 := by
  obtain ⟨behind, hbehind, hr⟩ := bind_eq_ok.mp hr
  obtain ⟨offset, hoffset, hbehind⟩ := bind_eq_ok.mp hbehind
  obtain rfl : pos = offset := minus_eq_ok_iff.mp hoffset
  obtain rfl := Except.ok.inj hbehind
  unfold Dialect.IgnoresOpener
  split at hr
  · rename_i hmark
    cases hr
    exact ⟨⟨fun _ => .inl hmark, fun _ => rfl⟩, h⟩
  · rename_i hmark
    have hmark : ¬ (d.behindLineMark t pos).isSome = true := hmark
    obtain ⟨hanswer, hnext⟩ := h.inBlockComment pos
    dsimp only at hr
    rw [hanswer] at hr
    split at hr
    · rename_i hblock
      cases hr
      exact ⟨⟨fun _ => .inr (.inl hblock), fun _ => rfl⟩, hnext⟩
    · rename_i hblock
      obtain ⟨accepted, haccepted, hr⟩ := bind_eq_ok.mp hr
      cases hr
      obtain ⟨offset, hoffset, haccepted⟩ := bind_eq_ok.mp haccepted
      obtain rfl : pos = offset := minus_eq_ok_iff.mp hoffset
      have haccepted : d.accepts t pos .heredoc = .ok accepted := haccepted
      refine ⟨?_, hnext⟩
      rw [haccepted]
      simp [hmark, hblock]

/-- A step of the scan for heredocs goes to the next opener, which is ignored or opens a heredoc.

**Proof sketch.** By cases on the answer of the check. For an opener that counts, the walk over the
lines finds where the body ends. -/
lemma heredocStep_eq_go (ht : t.Valid) (hr : r.KeepsToLine) (h : CursorOf t d cursor)
    {verdict : Sweep.Verdict (Interval × Interval)} {next : Nat} {cursor' : Option CommentCursor}
    (hstep : (document t d).heredocStep r pos cursor = .ok (.go verdict next cursor')) :
    CursorOf t d cursor' ∧ ∃ o, r.nextOpener t pos = some o ∧
      ((d.IgnoresOpener t o.start ∧ verdict = .refused ∧ next = o.start + 1) ∨
        ∃ x, ¬ d.IgnoresOpener t o.start ∧ r.Maps t x ∧ verdict = .accepted x ∧
          x.1.start = o.start ∧ next = x.2.stop) := by
  rcases heredocStep_cases (spans_document t d) hstep with ⟨-, hmove⟩ | hmove
  · cases hmove
  obtain ⟨o, refused, c, hnext, hrefuses, hmove⟩ := hmove
  have hnext : r.nextOpener t pos = some o := hnext
  obtain ⟨hignores, hc⟩ := refusesHeredoc_eq_ok h hrefuses
  rcases hmove with ⟨rfl, hmove⟩ | ⟨bodyStop, rfl, hbody, hmove⟩
  · cases hmove
    exact ⟨hc, o, hnext, .inl ⟨hignores.mp rfl, rfl, rfl⟩⟩
  · have hat := r.openerAt_of_nextOpener hnext
    have hstart : min ((document t d).text.lineEnd o.stop + 1) (document t d).hi = o.bodyStart t :=
      hr.bodyStart_eq ht hat
    rw [hstart] at hbody hmove
    have hends : r.BodyEnds t o (o.bodyStart t) bodyStop :=
      HeredocRules.bodyEnds_of_bodyEnd (spans_document t d) (r.tag_ne_nil_of_openerAt hat)
        (o.startsLine_bodyStart t) hbody
    have hmaps : r.Maps t (⟨o.start, o.stop, .heredocTag⟩, ⟨o.bodyStart t, bodyStop, .heredoc⟩) :=
      ⟨o, bodyStop, hat, hends, rfl⟩
    have hkeeps : ¬ d.IgnoresOpener t o.start := fun hi => by cases hignores.mpr hi
    obtain ⟨-, h1, h2⟩ := hmaps.bounds hr ht
    cases hmove
    exact ⟨hc, o, hnext, .inr ⟨_, hkeeps, hmaps, rfl, rfl, Nat.max_eq_left (Nat.le_trans h1 h2)⟩⟩

/-- The heredocs found so far are heredocs of the text whose openers are not ignored. None is opened
before the body of an earlier one has ended. And every opener in front of an offset is ignored unless it
lies between the start of such an opener and the end of its body. -/
structure HeredocsRead (t : Text) (d : Dialect) (r : HeredocRules) (last : Nat)
    (found : Array (Interval × Interval)) : Prop where
  opened : ∀ x ∈ found, r.Maps t x ∧ ¬ d.IgnoresOpener t x.1.start
  ordered : found.toList.Pairwise fun x y => x.2.stop ≤ y.1.start
  ended : ∀ x ∈ found, x.2.stop ≤ last
  complete : ∀ pos < last, (r.openerAt t pos).isSome = true →
    (∀ x ∈ found, pos < x.1.start ∨ x.2.stop ≤ pos) → d.IgnoresOpener t pos

namespace HeredocsRead

/-- Nothing is found before the scan starts. -/
lemma zero : HeredocsRead t d r 0 #[] :=
  ⟨by simp, .nil, by simp, by simp⟩

/-- A scan that goes on to where no opener lies before misses none. -/
lemma skip (h : HeredocsRead t d r last found) (hle : last ≤ pos)
    (hnone : ∀ j, last ≤ j → j < pos → r.openerAt t j = none) : HeredocsRead t d r pos found where
  opened := h.opened
  ordered := h.ordered
  ended x hx := Nat.le_trans (h.ended x hx) hle
  complete j hj hat hout := by
    rcases Nat.lt_or_ge j last with hlt | hge
    · exact h.complete j hlt hat hout
    · rw [hnone j hge hj] at hat
      cases hat

/-- A scan that ignores an opener goes on behind its first byte. -/
lemma ignore (h : HeredocsRead t d r pos found) (hignores : d.IgnoresOpener t pos) :
    HeredocsRead t d r (pos + 1) found where
  opened := h.opened
  ordered := h.ordered
  ended x hx := Nat.le_succ_of_le (h.ended x hx)
  complete j hj hat hout := by
    rcases Nat.lt_or_eq_of_le (Nat.le_of_lt_succ hj) with hlt | rfl
    · exact h.complete j hlt hat hout
    · exact hignores

/-- A scan that has found a heredoc goes on behind its body. **Proof sketch.** The new heredoc starts
where the scan stands, so behind all earlier ones. The openers that the scan jumps over lie in the
heredoc. -/
lemma push {x : Interval × Interval} (h : HeredocsRead t d r x.1.start found)
    (hmaps : r.Maps t x) (hkeeps : ¬ d.IgnoresOpener t x.1.start) (hle : x.1.start ≤ x.2.stop) :
    HeredocsRead t d r x.2.stop (found.push x) where
  opened y hy := by
    rcases Array.mem_push.mp hy with hy | rfl
    · exact h.opened y hy
    · exact ⟨hmaps, hkeeps⟩
  ordered := by
    rw [Array.toList_push]
    refine List.pairwise_append.mpr ⟨h.ordered, List.pairwise_singleton _ _, fun y hy z hz => ?_⟩
    rw [List.mem_singleton.mp hz]
    exact h.ended y (Array.mem_toList_iff.mp hy)
  ended y hy := by
    rcases Array.mem_push.mp hy with hy | rfl
    · exact Nat.le_trans (h.ended y hy) hle
    · exact Nat.le_refl _
  complete j hj hat hout := by
    rcases hout x (Array.mem_push.mpr (.inr rfl)) with hlt | hge
    · exact h.complete j hlt hat fun y hy => hout y (Array.mem_push.mpr (.inl hy))
    · omega

end HeredocsRead

/-- A step that finds no opener has come to the last one. -/
lemma heredocStep_eq_stop (hstep : (document t d).heredocStep r pos cursor = .ok .stop) :
    r.nextOpener t pos = none := by
  rcases heredocStep_cases (spans_document t d) hstep with ⟨hnone, -⟩ | ⟨o, refused, c, -, -, hmove⟩
  · exact hnone
  · rcases hmove with ⟨-, hmove⟩ | ⟨bodyStop, -, -, hmove⟩ <;> cases hmove

/-- **What the scan for heredocs finds.** It finds heredocs of the document, one behind the other, whose
openers are not ignored; and an opener that lies outside of them and of the lines of their openers is
ignored.

**Proof sketch.** The scan has read every opener in front of the offset it stands at. A step goes to the
next opener, and behind its first byte or behind its body. -/
theorem heredocs_spec (ht : t.Valid) (hd : ∀ rules, d.comments = some rules → rules.Proper)
    (hr : r.KeepsToLine) {harvest : Sweep.Harvest (Interval × Interval)}
    (h : Sweep.collect ((document t d).heredocStep r) t.size 0 (document t d).cursor = .ok harvest) :
    HeredocsRead t d r t.size harvest.items := by
  refine Sweep.collect_induction
    (I := fun last cursor h => last ≤ t.size ∧ CursorOf t d cursor ∧ HeredocsRead t d r last h.items)
    (Q := fun h => HeredocsRead t d r t.size h.items) ?_ ?_
    ⟨Nat.zero_le _, CursorOf.new hd, .zero⟩ h
  · rintro last cursor h verdict next cursor' ⟨-, hcursor, hread⟩ hstep hle
    obtain ⟨hcursor', o, hnext, hmove⟩ := heredocStep_eq_go ht hr hcursor hstep
    obtain ⟨hge, -⟩ := r.nextOpener_bounds hnext
    have hskip : HeredocsRead t d r o.start h.items :=
      hread.skip hge fun j h1 h2 => r.openerAt_eq_none_of_nextOpener hnext h1 h2
    rcases hmove with ⟨hignores, rfl, rfl⟩ | ⟨x, hkeeps, hmaps, rfl, hstart, rfl⟩
    · exact ⟨by omega, hle, hcursor', hskip.ignore hignores⟩
    · obtain ⟨h1, h2, h3⟩ := hmaps.bounds hr ht
      rw [← hstart] at hge hskip hkeeps
      exact ⟨by omega, hle, hcursor', hskip.push hmaps hkeeps (by omega)⟩
  · rintro last cursor h ⟨hle, -, hread⟩ hstep
    exact hread.skip hle fun j h1 _ =>
      r.openerAt_eq_none_of_nextOpener_eq_none (heredocStep_eq_stop hstep) h1

end Frame

/-! ### Full passes -/

/-- The profile maps heredocs before anything else, and by these rules. -/
structure Profile.HasHeredocs (profile : Profile) (rules : HeredocRules) : Prop where
  heredocs : profile.dialect.heredocs = some rules
  program : ∃ rest, profile.program = .heredocs :: rest ∧
    Primitive.mapsSortAll .heredocs rest = false
  comments : ∀ r, profile.dialect.comments = some r → r.Proper
  rules : rules.KeepsToLine

namespace Profile

variable {profile : Profile} {rules : HeredocRules} {doc : Buffer} {layout : Layout}
variable {nested : IntervalSet} {start length : Nat} {detect : Bool} {q : Pass}

/-- Perl and PHP code map heredocs before anything else. -/
lemma hasHeredocs (hprofile : profile ∈ [perl, phpCode])
    (hrules : profile.dialect.heredocs = some rules) : profile.HasHeredocs rules := by
  simp only [List.mem_cons, List.not_mem_nil, or_false] at hprofile
  rcases hprofile with rfl | rfl
  · obtain rfl := Option.some.inj hrules
    refine ⟨rfl, ⟨_, rfl, by decide⟩, fun r hr => ?_, by decide, by decide⟩
    cases hr
  · obtain rfl := Option.some.inj hrules
    refine ⟨rfl, ⟨_, rfl, by decide⟩, fun r hr => ?_, by decide, by decide⟩
    obtain rfl := Option.some.inj hr
    decide

/-- The heredocs of a pass over a document are those that the scan finds there.

**Proof sketch.** They are mapped by the first primitive, when the set is empty, and no later primitive
touches the set. As the parts lie side by side, the set keeps them in the order in which they are found. -/
lemma HasHeredocs.runPass (h : profile.HasHeredocs rules) (hdoc : doc.text.Valid)
    (hpass : profile.runPass doc start length detect layout nested = .ok q) :
    ∃ found, q.layout.composite.heredocs.intervals.toList =
        found.toList.flatMap Frame.heredocEntries ∧
      Frame.HeredocsRead doc.text profile.dialect rules doc.text.size found := by
  obtain ⟨rest, hprogram, hrest⟩ := h.program
  unfold Profile.runPass at hpass
  rw [hprogram, Primitive.runAll_cons rfl] at hpass
  obtain ⟨p, hp, hpass⟩ := bind_eq_ok.mp hpass
  have hkept : q.layout.composite.heredocs = p.layout.composite.heredocs :=
    Option.some.inj (Primitive.runAll_sort _ _ _ _ hrest hpass)
  simp only [Primitive.run] at hp
  rcases Pass.mapHeredocs_cases hp with
    ⟨hnone, -⟩ | ⟨rules', harvest, set, changed, hrules, hharvest, hset, -, hp⟩
  · cases hnone.symm.trans h.heredocs
  · obtain rfl : rules' = rules := Option.some.inj (hrules.symm.trans h.heredocs)
    obtain ⟨htiles, -⟩ := (Frame.heredocs_ensures (Frame.wellFormed_document hdoc profile.dialect)
      h.rules.opener).elim hharvest
    have hentries := htiles.sublist
      (List.Sublist.flatMap_right _ fun x _ => Frame.heredocEntries_sublist x)
    refine ⟨harvest.items, ?_, Frame.heredocs_spec hdoc h.comments h.rules hharvest⟩
    rw [hkept, hp, Pass.layout_repairIf]
    show set.intervals.toList = _
    rw [hset, ← Array.foldl_toList, Pass.foldl_addHeredoc]
    exact IntervalSet.toList_foldl_add_of_tiles rfl hentries

end Profile

namespace Painter

variable {profile : Profile} {rules : HeredocRules} {doc : Buffer}

/-- **The heredocs of a document.** In Perl and in PHP code every text gets a full pass, and the heredocs
that it leaves are, one heredoc after the other, the opener and the body unless that is empty. The body
starts behind the newline that ends the line of the opener, or at the end of the text if there is none. It
ends just past the tag on the first line from there on that closes the heredoc, or at the end of the text
if no line does. No opener starts in an earlier opener or body. And an opener that starts outside of the
heredocs found, and not on the line of one of their openers behind it, is ignored: it stands behind a
comment mark on its line or in a block comment, or the dialect does not accept it.

**Proof sketch.** This is what the scan for heredocs finds. It is the first one to be made, and the others
leave its set alone. -/
theorem full_maps_heredocs (hprofile : profile ∈ [Profile.perl, Profile.phpCode])
    (hrules : profile.dialect.heredocs = some rules) (hdoc : doc.text.Valid) :
    (∀ p : Painter, p.layout.HistoryOrdered → ∃ r, p.full profile doc = .ok r) ∧
      ∀ (p p' : Painter) (doc' : Buffer), p.full profile doc = .ok (p', doc') →
        ∃ found : Array (Interval × Interval),
          p'.layout.composite.heredocs.intervals.toList =
            found.toList.flatMap Frame.heredocEntries ∧
          (∀ x ∈ found, rules.Maps doc.text x ∧
            ¬ profile.dialect.IgnoresOpener doc.text x.1.start) ∧
          found.toList.Pairwise (fun x y => x.1.stop ≤ y.1.start ∧ x.2.stop ≤ y.1.start) ∧
          ∀ pos, (rules.openerAt doc.text pos).isSome = true →
            (∀ x ∈ found, pos < x.1.start ∨ x.2.stop ≤ pos) →
            profile.dialect.IgnoresOpener doc.text pos := by
  have hsound : profile.Sound := by
    refine Profile.sound_of_mem_builtIn ?_
    simp only [List.mem_cons, List.not_mem_nil, or_false] at hprofile
    rcases hprofile with rfl | rfl <;> simp [Profile.builtIn]
  have hhas := Profile.hasHeredocs hprofile hrules
  refine ⟨fun p hp => ?_, fun p p' doc' hfull => ?_⟩
  · obtain ⟨r, hr, -⟩ := full_ensures hsound hdoc hp
    exact ⟨r, hr⟩
  · obtain ⟨pass, hpass, hfull⟩ := bind_eq_ok.mp hfull
    cases hfull
    obtain ⟨found, hentries, hread⟩ := hhas.runPass hdoc hpass
    refine ⟨found, hentries, hread.opened, ?_, fun pos hat hout => ?_⟩
    · -- an opener ends in front of its body, and the next opener starts behind that
      refine hread.ordered.imp_of_mem fun {x y} hx hy hxy => ⟨?_, hxy⟩
      have hmaps := (hread.opened x (Array.mem_toList_iff.mp hx)).1
      obtain ⟨-, h2, h3⟩ := hmaps.bounds hhas.rules hdoc
      omega
    · obtain ⟨o, ho⟩ := Option.isSome_iff_exists.mp hat
      have := rules.openerAt_bounds ho
      exact hread.complete pos (by omega) hat hout

/-- Two openers on a line, a body that goes on behind a word which only begins with the tag, and an opener
in a comment. -/
theorem full_maps_heredocs_php :
    ∃ (p' : Painter) (doc' : Buffer) (found : Array (Interval × Interval)),
      Painter.new.full .phpCode
          (Buffer.new (Text.ofString "f(<<<A, <<<B);\n A_\n A, 1);\n// <<<C\n")) = .ok (p', doc') ∧
        p'.layout.composite.heredocs.intervals = #[⟨2, 6, .heredocTag⟩, ⟨15, 21, .heredoc⟩] ∧
        p'.layout.composite.heredocs.intervals.toList =
          found.toList.flatMap Frame.heredocEntries ∧
        ∀ x ∈ found, Dialect.phpHeredocs.Maps
          (Text.ofString "f(<<<A, <<<B);\n A_\n A, 1);\n// <<<C\n") x := by
  have hrun : (do
      let r ← Painter.new.full .phpCode
        (Buffer.new (Text.ofString "f(<<<A, <<<B);\n A_\n A, 1);\n// <<<C\n"))
      demand (r.1.layout.composite.heredocs.intervals =
        #[Interval.mk 2 6 .heredocTag, Interval.mk 15 21 .heredoc]) .outOfRange) = .ok () := by
    decide +kernel
  obtain ⟨⟨p', doc'⟩, hfull, hrun⟩ := bind_eq_ok.mp hrun
  have hprofile : Profile.phpCode ∈ [Profile.perl, Profile.phpCode] := by simp
  have hrules : Profile.phpCode.dialect.heredocs = some Dialect.phpHeredocs := rfl
  have hdoc : (Buffer.new
      (Text.ofString "f(<<<A, <<<B);\n A_\n A, 1);\n// <<<C\n")).text.Valid := Text.valid_ofString _
  obtain ⟨found, hentries, hopened, -⟩ := (full_maps_heredocs hprofile hrules hdoc).2 _ _ _ hfull
  exact ⟨p', doc', found, hfull, of_decide_eq_true (demand_eq_ok_iff.mp hrun), hentries,
    fun x hx => (hopened x hx).1⟩

end Painter

end LexPaint
