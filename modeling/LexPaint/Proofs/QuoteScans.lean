import LexPaint.Proofs.LiteralScans
import LexPaint.Proofs.ScannerMemory

set_option relaxedAutoImplicit false
set_option autoImplicit false

/-!
# What the scans for strings and line comments find

The scan for strings takes up every quote of a document, and the scan for line comments every mark.
A quote that opens no string lies in a string that was found before, or is discarded for one of the
reasons that the scan has. It is the same with marks and line comments.

The two scans do not know the same things. The comments are not mapped yet when a quote is judged,
so a quote behind a mark on its line is discarded where a toggle takes that mark for unquoted. When
a mark is judged, the strings are mapped, and the toggle is not asked.

## Main definitions

* `Dialect.Discards`: the reasons to discard a quote.
* `Dialect.Rejects`: the reasons to reject a line comment mark.

## Main results

* `Text.behindMarkOnLine_eq_some`, `Text.inQuotesOnLine_of_behindMarkOnLine`: the two questions about
  quotes on a line fit together.
* `Frame.quotes_spec`, `Frame.lineComments_spec`: what the two scans find.
-/

namespace LexPaint

/-! ### Marks on a line -/

namespace Text

variable {t : Text} {marks : List Mark} {accept : Nat → Bool} {pos i m : Nat} {quote : Option UInt8}

/-- No quote opens or closes where nothing is left to scan. -/
lemma openQuote_of_le (h : pos ≤ i) : t.openQuote pos i quote = quote := by
  unfold openQuote
  rw [if_neg (by omega)]

/-- The first mark stands unquoted.

**Proof sketch.** Induction along the search. The toggle takes the same steps. -/
lemma firstMark_eq_some (h : t.firstMark marks accept pos i quote = some m) :
    i ≤ m ∧ m < pos ∧ marks.any (t.hasAt m) = true ∧ accept m = true ∧
      t.openQuote m i quote = none := by
  fun_induction firstMark t marks accept pos i quote with
  | case1 i hlt q hb ih =>
    obtain ⟨h1, h2, h3, h4, h5⟩ := ih h
    refine ⟨by omega, h2, h3, h4, ?_⟩
    rw [openQuote, if_pos (by omega)]
    simpa [hb] using h5
  | case2 i hlt q hb hq ih =>
    obtain ⟨h1, h2, h3, h4, h5⟩ := ih h
    refine ⟨by omega, h2, h3, h4, ?_⟩
    rw [openQuote, if_pos (by omega)]
    simpa [hb, hq] using h5
  | case3 i hlt q hb hq ih =>
    obtain ⟨h1, h2, h3, h4, h5⟩ := ih h
    refine ⟨by omega, h2, h3, h4, ?_⟩
    rw [openQuote, if_pos (by omega)]
    simpa [hb, hq] using h5
  | case4 i hlt hq ih =>
    obtain ⟨h1, h2, h3, h4, h5⟩ := ih h
    refine ⟨by omega, h2, h3, h4, ?_⟩
    rw [openQuote, if_pos (by omega)]
    simpa [hq] using h5
  | case5 i hlt hq hmark =>
    obtain rfl := Option.some.inj h
    rw [Bool.and_eq_true] at hmark
    exact ⟨Nat.le_refl _, hlt, hmark.1, hmark.2, openQuote_of_le (Nat.le_refl _)⟩
  | case6 i hlt hq hmark ih =>
    obtain ⟨h1, h2, h3, h4, h5⟩ := ih h
    refine ⟨by omega, h2, h3, h4, ?_⟩
    rw [openQuote, if_pos (by omega)]
    simpa [hq] using h5
  | case7 => cases h

/-- Where there is no first mark, every mark stands quoted.

**Proof sketch.** Induction along the search. A mark that the search steps over stands behind a
backslash in a quote, where the toggle has the quote open as well. -/
lemma isSome_openQuote_of_firstMark
    (hmarks : ∀ mark ∈ marks, ∀ p, t.hasAt p mark = true → t.byteIs isQuote p = false)
    (h : t.firstMark marks accept pos i quote = none) (him : i ≤ m) (hmp : m < pos)
    (hany : marks.any (t.hasAt m) = true) (hacc : accept m = true) :
    (t.openQuote m i quote).isSome = true := by
  fun_induction firstMark t marks accept pos i quote with
  | case1 i hlt q hb ih =>
    rcases Nat.lt_or_ge i m with him' | him'
    · rw [openQuote, if_pos him']
      simp only [hb, if_true]
      rcases Nat.lt_or_ge m (i + 2) with hskip | hskip
      · rw [openQuote_of_le (by omega)]
        rfl
      · exact ih h hskip
    · rw [openQuote_of_le him']
      rfl
  | case2 i hlt q hb hq ih =>
    rcases Nat.lt_or_ge i m with him' | him'
    · rw [openQuote, if_pos him']
      simpa [hb, hq] using ih h him'
    · rw [openQuote_of_le him']
      rfl
  | case3 i hlt q hb hq ih =>
    rcases Nat.lt_or_ge i m with him' | him'
    · rw [openQuote, if_pos him']
      simpa [hb, hq] using ih h him'
    · rw [openQuote_of_le him']
      rfl
  | case4 i hlt hq ih =>
    rcases Nat.lt_or_eq_of_le him with him' | rfl
    · rw [openQuote, if_pos him']
      simpa [hq] using ih h him'
    · obtain ⟨mark, hmem, hat⟩ := List.any_eq_true.mp hany
      rw [hmarks mark hmem _ hat] at hq
      cases hq
  | case5 => cases h
  | case6 i hlt hq hmark ih =>
    rcases Nat.lt_or_eq_of_le him with him' | rfl
    · rw [openQuote, if_pos him']
      simpa [hq] using ih h him'
    · rw [hany, hacc] at hmark
      exact absurd rfl hmark
  | case7 => omega

/-- Offsets of one line have the line start in common.

**Proof sketch.** Induction on the distance. -/
lemma lineStart_eq_of_noNewline (hle : m ≤ pos) (hpos : pos ≤ t.size)
    (hno : ∀ j, m ≤ j → j < pos → t.byteAt j ≠ some newline) : t.lineStart pos = t.lineStart m := by
  unfold lineStart
  rw [Nat.min_eq_left hpos, Nat.min_eq_left (Nat.le_trans hle hpos)]
  obtain ⟨n, rfl⟩ := Nat.exists_eq_add_of_le hle
  induction n with
  | zero => rfl
  | succ n ih =>
    have hbyte : ¬ t.byteIs (· == newline) (m + n) = true := by
      rw [byteIs_eq_iff]
      exact hno (m + n) (by omega) (by omega)
    rw [← Nat.add_assoc, lineStartBefore, if_neg hbyte]
    exact ih (by omega) (by omega) fun j h1 h2 => hno j h1 (by omega)

/-- No newline stands between the start of a line and an offset of the line.

**Proof sketch.** Induction on the offset. -/
lemma byteAt_ne_newline_of_lineStart_le {j : Nat} (hpos : pos ≤ t.size) (hj : t.lineStart pos ≤ j)
    (hlt : j < pos) : t.byteAt j ≠ some newline := by
  unfold lineStart at hj
  rw [Nat.min_eq_left hpos] at hj
  clear hpos
  induction pos with
  | zero => omega
  | succ n ih =>
    rw [lineStartBefore] at hj
    split at hj
    · omega
    · rename_i hbyte
      rcases Nat.lt_or_eq_of_le (Nat.le_of_lt_succ hlt) with hlt' | rfl
      · exact ih hj hlt'
      · rwa [byteIs_eq_iff] at hbyte

/-- A plain mark lies in front of the end of its line.

**Proof sketch.** A plain mark contains no newline. -/
lemma add_length_le_lineEnd {mark : Mark} (hm : mark.IsPlain)
    (hat : t.hasAt pos mark = true) : pos + mark.length ≤ t.lineEnd pos := by
  have hpos : 0 < mark.length := List.length_pos_iff.mpr hm.1
  have hsize := le_size_of_hasAt hat hm.1
  refine LineCut.add_length_le (.inr (endsLine_lineEnd t pos)) hm hat ?_
  refine Nat.lt_of_le_of_ne (le_lineEnd (by omega)) fun heq => ?_
  rcases endsLine_lineEnd t pos with hend | hend
  · omega
  · rw [← heq] at hend
    exact byteAt_ne_newline hm hat (Nat.le_refl _) (by omega) hend

/-- The mark that an offset stands behind is an accepted and unquoted mark of its line.

**Proof sketch.** The search starts with the line of the offset, which is the line of the mark. -/
lemma behindMarkOnLine_eq_some (hpos : pos ≤ t.size)
    (h : t.behindMarkOnLine pos marks accept = some m) :
    m < pos ∧ marks.any (t.hasAt m) = true ∧ accept m = true ∧ t.inQuotesOnLine m = false ∧
      ∀ j, m ≤ j → j < pos → t.byteAt j ≠ some newline := by
  unfold behindMarkOnLine at h
  rw [Nat.min_eq_left hpos] at h
  dsimp only at h
  obtain ⟨h1, h2, h3, h4, h5⟩ := firstMark_eq_some h
  have hno : ∀ j, m ≤ j → j < pos → t.byteAt j ≠ some newline := fun j hj hlt =>
    byteAt_ne_newline_of_lineStart_le hpos (Nat.le_trans h1 hj) hlt
  refine ⟨h2, h3, h4, ?_, hno⟩
  unfold inQuotesOnLine
  rw [lineStart_eq_of_noNewline (Nat.le_of_lt h2) hpos hno] at h5
  rw [Nat.min_eq_left (by omega)]
  dsimp only
  rw [h5]
  rfl

/-- An accepted mark on the line of an offset that stands behind no mark is quoted on its line. -/
lemma inQuotesOnLine_of_behindMarkOnLine
    (hmarks : ∀ mark ∈ marks, ∀ p, t.hasAt p mark = true → t.byteIs isQuote p = false)
    (hpos : pos ≤ t.size) (h : t.behindMarkOnLine pos marks accept = none) (hmp : m < pos)
    (hno : ∀ j, m ≤ j → j < pos → t.byteAt j ≠ some newline)
    (hany : marks.any (t.hasAt m) = true) (hacc : accept m = true) : t.inQuotesOnLine m = true := by
  unfold behindMarkOnLine at h
  rw [Nat.min_eq_left hpos] at h
  dsimp only at h
  rw [lineStart_eq_of_noNewline (Nat.le_of_lt hmp) hpos hno] at h
  unfold inQuotesOnLine
  rw [Nat.min_eq_left (by omega)]
  exact isSome_openQuote_of_firstMark hmarks h (lineStart_le t m) hmp hany hacc

end Text

/-! ### The block comments of a document -/

variable {t : Text} {d : Dialect} {l : Layout} {pos : Nat} {cursor : Option CommentCursor}

/-- A cursor for the block comments of a document, if its language has any. -/
def CursorOf (t : Text) (d : Dialect) : Option CommentCursor → Prop
  | none => d.comments = none
  | some c => c.Sound ∧ c.text = t ∧ c.start = 0 ∧ d.comments = some c.rules

namespace CursorOf

/-- A new cursor is one for the block comments of the document. -/
lemma new (hd : ∀ rules, d.comments = some rules → rules.Proper) :
    CursorOf t d (Frame.document t d).cursor := by
  unfold Frame.cursor Frame.document
  dsimp only
  cases hc : d.comments with
  | none => exact hc
  | some rules =>
    exact ⟨CommentCursor.sound_new t 0 (hd rules hc).hasBlockMark, rfl, Nat.min_eq_left (Nat.zero_le _), hc⟩

/-- The cursor answers what the dialect answers of the document.

**Proof sketch.** A sound cursor answers as a new one does. -/
lemma inBlockComment (h : CursorOf t d cursor) (pos : Nat) :
    (Frame.inBlockComment cursor pos).1 = (d.inBlockComment t pos).isSome ∧
      CursorOf t d (Frame.inBlockComment cursor pos).2 := by
  cases cursor with
  | none =>
    have hc : d.comments = none := h
    refine ⟨?_, h⟩
    unfold Dialect.inBlockComment
    rw [hc]
    rfl
  | some c =>
    obtain ⟨hsound, htext, hstart, hrules⟩ := h
    obtain ⟨hanswer, hsound', htext', hstart', hrules'⟩ := hsound.query pos
    refine ⟨?_, hsound', htext'.trans htext, hstart'.trans hstart, ?_⟩
    · show (c.query pos).1.isSome = _
      unfold Dialect.inBlockComment
      rw [hrules, hanswer, htext, hstart]
    · show d.comments = some (c.query pos).2.rules
      rw [hrules', hrules]

end CursorOf

/-! ### Strings -/

/-- The reasons to discard a quote: it is escaped, it lies in a heredoc or in a quote operator, it
stands behind a comment mark on its line, or it lies in a block comment. -/
def Dialect.Discards (d : Dialect) (t : Text) (l : Layout) (pos : Nat) : Prop :=
  t.escaped pos = true ∨ (l.composite.inEither pos).isSome = true ∨
    (d.behindLineMark t pos).isSome = true ∨ (d.inBlockComment t pos).isSome = true

namespace Frame

/-- The tests of a quote discard it for these reasons and for no others. **Proof sketch.** The tests
are made one after the other, and the cursor answers for the block comments of the document. -/
lemma refusesQuote_eq_ok (h : CursorOf t d cursor) {r : Bool × Option CommentCursor}
    (hr : (document t d).refusesQuote l pos cursor = .ok r) :
    (r.1 = true ↔ d.Discards t l pos) ∧ CursorOf t d r.2 := by
  obtain ⟨escaped, hescaped, hr⟩ := bind_eq_ok.mp hr
  obtain ⟨_, -, hescaped⟩ := bind_eq_ok.mp hescaped
  obtain rfl := Except.ok.inj hescaped
  unfold Dialect.Discards
  split at hr
  · rename_i hesc
    cases hr
    exact ⟨⟨fun _ => .inl hesc, fun _ => rfl⟩, h⟩
  · rename_i hesc
    have hesc : ¬ t.escaped pos = true := hesc
    split at hr
    · rename_i heither
      cases hr
      exact ⟨⟨fun _ => .inr (.inl heither), fun _ => rfl⟩, h⟩
    · rename_i heither
      obtain ⟨behind, hbehind, hr⟩ := bind_eq_ok.mp hr
      obtain ⟨offset, hoffset, hbehind⟩ := bind_eq_ok.mp hbehind
      obtain rfl : pos = offset := minus_eq_ok_iff.mp hoffset
      obtain rfl := Except.ok.inj hbehind
      split at hr
      · rename_i hmark
        cases hr
        exact ⟨⟨fun _ => .inr (.inr (.inl hmark)), fun _ => rfl⟩, h⟩
      · rename_i hmark
        have hmark : ¬ (d.behindLineMark t pos).isSome = true := hmark
        obtain rfl := Except.ok.inj hr
        -- the cursor is asked last
        obtain ⟨hanswer, hnext⟩ := h.inBlockComment pos
        refine ⟨?_, hnext⟩
        rw [hanswer]
        simp [hesc, heither, hmark]

/-- A step of the scan for strings goes to the next quote, which is discarded or opens a string.

**Proof sketch.** By cases on the answer of the tests. -/
lemma quoteStep_eq_go (ht : t.Valid) (h : CursorOf t d cursor) {condition : Condition}
    {singleLine : Bool} {verdict : Sweep.Verdict Interval} {next : Nat}
    {cursor' : Option CommentCursor}
    (hstep : (document t d).quoteStep l condition singleLine pos cursor =
      .ok (.go verdict next cursor')) :
    CursorOf t d cursor' ∧ ∃ start, t.findByte isQuote pos t.size = some start ∧
      ((d.Discards t l start ∧ verdict = .refused ∧ next = start + 1) ∨
        ∃ iv : Interval, ¬ d.Discards t l start ∧ verdict = .accepted iv ∧ iv.start = start ∧
          start < iv.stop ∧ next = iv.stop) := by
  obtain ⟨_, -, hstep⟩ := bind_eq_ok.mp hstep
  have hsearch : (document t d).text.findByte isQuote pos (document t d).hi =
      t.findByte isQuote pos t.size := rfl
  rw [hsearch] at hstep
  split at hstep
  · cases hstep
  · rename_i start hstart
    obtain ⟨-, hlt, hquote⟩ := Text.findByte_bounds hstart
    obtain ⟨b, hb, hqb⟩ := Text.byteIs_iff.mp hquote
    obtain ⟨r, hr, hstep⟩ := bind_eq_ok.mp hstep
    obtain ⟨hrefused, hnext⟩ := refusesQuote_eq_ok h hr
    dsimp only at hstep
    split at hstep
    · rename_i hyes
      cases hstep
      exact ⟨hnext, start, hstart, .inl ⟨hrefused.mp hyes, rfl, rfl⟩⟩
    · rename_i hno
      obtain ⟨iv, hiv, hstep⟩ := bind_eq_ok.mp hstep
      cases hstep
      obtain ⟨hivstart, hivlt, -⟩ := (stringAt_ensures (wellFormed_document ht d) condition
        singleLine _ (Nat.zero_le _) hlt (Text.isBoundary_of_ascii hb (isQuote_ascii hqb))).elim hiv
      refine ⟨hnext, start, hstart, .inr ⟨iv, fun hd => hno (hrefused.mpr hd), rfl, hivstart, hivlt, ?_⟩⟩
      exact Nat.max_eq_left hivlt

/-- The strings found so far start at quotes that are not discarded, and every quote in front of an
offset lies in one of them or is discarded. -/
structure QuotesRead (t : Text) (d : Dialect) (l : Layout) (last : Nat) (found : Array Interval) :
    Prop where
  opened : ∀ iv ∈ found, t.byteIs isQuote iv.start = true ∧ ¬ d.Discards t l iv.start
  covered : ∀ pos < last, t.byteIs isQuote pos = true →
    (∃ iv ∈ found, iv.contains pos = true) ∨ d.Discards t l pos

/-- Nothing is found before the scan starts. -/
lemma quotesRead_zero : QuotesRead t d l 0 #[] :=
  ⟨by simp, by simp⟩

/-- A scan that goes to the next quote misses none. -/
lemma QuotesRead.next {found : Array Interval} {last start : Nat} (h : QuotesRead t d l last found)
    (hstart : t.findByte isQuote last t.size = some start) : QuotesRead t d l start found where
  opened := h.opened
  covered pos hpos hq := by
    rcases Nat.lt_or_ge pos last with hlt | hge
    · exact h.covered pos hlt hq
    · rw [(Text.findByte_eq_some_iff.mp hstart).2.2.2 pos hge hpos] at hq
      cases hq

/-- A scan that discards a quote goes on behind it. -/
lemma QuotesRead.discard {found : Array Interval} {start : Nat} (h : QuotesRead t d l start found)
    (hdiscards : d.Discards t l start) : QuotesRead t d l (start + 1) found where
  opened := h.opened
  covered pos hpos hq := by
    rcases Nat.lt_or_eq_of_le (Nat.le_of_lt_succ hpos) with hlt | rfl
    · exact h.covered pos hlt hq
    · exact .inr hdiscards

/-- A scan that has found a string goes on behind it. -/
lemma QuotesRead.push {found : Array Interval} {iv : Interval}
    (h : QuotesRead t d l iv.start found) (hquote : t.byteIs isQuote iv.start = true)
    (hkeeps : ¬ d.Discards t l iv.start) : QuotesRead t d l iv.stop (found.push iv) where
  opened a ha := by
    rcases Array.mem_push.mp ha with ha | rfl
    · exact h.opened a ha
    · exact ⟨hquote, hkeeps⟩
  covered pos hpos hq := by
    rcases Nat.lt_or_ge pos iv.start with hlt | hge
    · obtain ⟨a, ha, hc⟩ | hd := h.covered pos hlt hq
      · exact .inl ⟨a, Array.mem_push.mpr (.inl ha), hc⟩
      · exact .inr hd
    · exact .inl ⟨iv, Array.mem_push.mpr (.inr rfl), Interval.contains_iff.mpr ⟨hge, hpos⟩⟩

/-- A step that finds no quote has come to the last one.

**Proof sketch.** Every other step goes on. -/
lemma quoteStep_eq_stop {condition : Condition} {singleLine : Bool}
    (hstep : (document t d).quoteStep l condition singleLine pos cursor = .ok .stop) :
    t.findByte isQuote pos t.size = none := by
  obtain ⟨_, -, hstep⟩ := bind_eq_ok.mp hstep
  split at hstep
  · rename_i hnone
    exact hnone
  · obtain ⟨r, -, hstep⟩ := bind_eq_ok.mp hstep
    dsimp only at hstep
    split at hstep
    · cases hstep
    · obtain ⟨iv, -, hstep⟩ := bind_eq_ok.mp hstep
      cases hstep

/-- **What the scan for strings finds.** Every string starts at a quote that is not discarded, and
every quote of the document lies in a string or is discarded.

**Proof sketch.** The scan has read every quote in front of the offset it stands at. A step goes to
the next quote, and behind it or behind its string. -/
theorem quotes_spec (ht : t.Valid) (hd : ∀ rules, d.comments = some rules → rules.Proper)
    {condition : Condition} {singleLine : Bool} {harvest : Sweep.Harvest Interval}
    (h : Sweep.collect ((document t d).quoteStep l condition singleLine) t.size 0
      (document t d).cursor = .ok harvest) : QuotesRead t d l t.size harvest.items := by
  refine Sweep.collect_induction
    (I := fun last cursor h => CursorOf t d cursor ∧ QuotesRead t d l last h.items)
    (Q := fun h => QuotesRead t d l t.size h.items) ?_ ?_ ⟨CursorOf.new hd, quotesRead_zero⟩ h
  · rintro last cursor h verdict next cursor' ⟨hcursor, hread⟩ hstep -
    obtain ⟨hcursor', start, hstart, hmove⟩ := quoteStep_eq_go ht hcursor hstep
    obtain ⟨hle, -, hquote⟩ := Text.findByte_bounds hstart
    rcases hmove with ⟨hdiscards, rfl, rfl⟩ | ⟨iv, hkeeps, rfl, rfl, hstop, rfl⟩
    · exact ⟨by omega, hcursor', (hread.next hstart).discard hdiscards⟩
    · exact ⟨by omega, hcursor', (hread.next hstart).push hquote hkeeps⟩
  · rintro last cursor h ⟨-, hread⟩ hstep
    refine ⟨hread.opened, fun pos hpos hq => ?_⟩
    rcases Nat.lt_or_ge pos last with hlt | hge
    · exact hread.covered pos hlt hq
    · rw [Text.findByte_eq_none_iff.mp (quoteStep_eq_stop hstep) pos hge hpos] at hq
      cases hq

end Frame

/-! ### Line comments -/

/-- The reasons to reject a line comment mark: it lies in a string, in a heredoc or a quote operator,
or in a block comment, or the dialect does not accept it. -/
def Dialect.Rejects (d : Dialect) (t : Text) (l : Layout) (condition : Condition) (pos : Nat) :
    Prop :=
  (l.quotes.inString pos).isSome = true ∨ (l.composite.inEither pos).isSome = true ∨
    (d.inBlockComment t pos).isSome = true ∨ d.accepts t pos condition = .ok false

namespace Frame

variable {condition : Condition} {marks : List Mark} {found : Array Interval} {last start : Nat}

/-- The tests of a mark reject it for these reasons and for no others. **Proof sketch.** As for
quotes. -/
lemma refusesLineComment_eq_ok (h : CursorOf t d cursor) {r : Bool × Option CommentCursor}
    (hr : (document t d).refusesLineComment l condition pos cursor = .ok r) :
    (r.1 = true ↔ d.Rejects t l condition pos) ∧ CursorOf t d r.2 := by
  obtain ⟨hanswer, hnext⟩ := h.inBlockComment pos
  unfold refusesLineComment at hr
  unfold Dialect.Rejects
  split at hr
  · rename_i hstring
    cases hr
    rw [Bool.or_eq_true] at hstring
    exact ⟨⟨fun _ => hstring.imp_right .inl, fun _ => rfl⟩, h⟩
  · rename_i hstring
    rw [Bool.or_eq_true, not_or] at hstring
    dsimp only at hr
    rw [hanswer] at hr
    split at hr
    · rename_i hblock
      cases hr
      exact ⟨⟨fun _ => .inr (.inr (.inl hblock)), fun _ => rfl⟩, hnext⟩
    · rename_i hblock
      obtain ⟨accepted, haccepted, hr⟩ := bind_eq_ok.mp hr
      cases hr
      obtain ⟨offset, hoffset, haccepted⟩ := bind_eq_ok.mp haccepted
      obtain rfl : pos = offset := minus_eq_ok_iff.mp hoffset
      have haccepted : d.accepts t pos condition = .ok accepted := haccepted
      refine ⟨?_, hnext⟩
      rw [haccepted]
      simp [hstring.1, hstring.2, hblock]

/-- A step of the scan for line comments goes to the next mark, which is rejected or opens a
comment.

**Proof sketch.** By cases on the answer of the tests. -/
lemma lineCommentStep_eq_go (h : CursorOf t d cursor) {finder : MarkFinder}
    {verdict : Sweep.Verdict Interval} {next : Nat} {state : Option CommentCursor × MarkFinder}
    (hstep : (document t d).lineCommentStep l condition pos (cursor, finder) =
      .ok (.go verdict next state)) :
    CursorOf t d state.1 ∧ state.2 = (finder.find t pos t.size).2 ∧
      ∃ start length, (finder.find t pos t.size).1 = some (start, length) ∧
        ((d.Rejects t l condition start ∧ verdict = .refused ∧ next = start + length) ∨
          ¬ d.Rejects t l condition start ∧
            verdict = .accepted ⟨start, t.lineEnd start, .lineComment⟩ ∧
            next = max (t.lineEnd start) (start + length)) := by
  unfold lineCommentStep at hstep
  have hsearch : finder.find (document t d).text pos (document t d).hi = finder.find t pos t.size :=
    rfl
  simp only [hsearch] at hstep
  split at hstep
  · cases hstep
  · rename_i start length hfound
    obtain ⟨r, hr, hstep⟩ := bind_eq_ok.mp hstep
    obtain ⟨hrefused, hnext⟩ := refusesLineComment_eq_ok h hr
    have hline : min (t.lineEnd start) t.size = t.lineEnd start :=
      Nat.min_eq_left (t.lineEnd_le_size start)
    split at hstep
    · rename_i hyes
      cases hstep
      exact ⟨hnext, rfl, start, length, hfound, .inl ⟨hrefused.mp hyes, rfl, rfl⟩⟩
    · rename_i hno
      cases hstep
      refine ⟨hnext, rfl, start, length, hfound, .inr ⟨fun hr => hno (hrefused.mpr hr), ?_, ?_⟩⟩
      · exact congrArg (fun stop => Sweep.Verdict.accepted (⟨start, stop, .lineComment⟩ : Interval))
          hline
      · exact congrArg (fun stop => max stop (start + length)) hline

/-- A step that finds no mark has come to the last one. -/
lemma lineCommentStep_eq_stop {finder : MarkFinder}
    (hstep : (document t d).lineCommentStep l condition pos (cursor, finder) = .ok .stop) :
    (finder.find t pos t.size).1 = none := by
  unfold lineCommentStep at hstep
  dsimp only at hstep
  split at hstep
  · rename_i hnone
    exact hnone
  · obtain ⟨r, -, hstep⟩ := bind_eq_ok.mp hstep
    split at hstep <;> cases hstep

/-- The line comments found so far start at marks that are not rejected and end with their lines,
and every mark in front of an offset lies in one of them or overlaps a rejected mark. -/
structure MarksRead (t : Text) (d : Dialect) (l : Layout) (condition : Condition)
    (marks : List Mark) (last : Nat) (found : Array Interval) : Prop where
  opened : ∀ iv ∈ found, marks.any (t.hasAt iv.start) = true ∧ iv.stop = t.lineEnd iv.start ∧
    ¬ d.Rejects t l condition iv.start
  covered : ∀ pos < last, ∀ m ∈ marks, t.hasAt pos m = true →
    (∃ iv ∈ found, iv.contains pos = true) ∨
      ∃ start, ∃ m' ∈ marks, t.hasAt start m' = true ∧ start ≤ pos ∧ pos < start + m'.length ∧
        d.Rejects t l condition start

namespace MarksRead

/-- Nothing is found before the scan starts. -/
lemma zero : MarksRead t d l condition marks 0 #[] :=
  ⟨by simp, by simp⟩

/-- A scan that goes on to where no mark lies before misses none. -/
lemma skip (h : MarksRead t d l condition marks last found)
    (hnone : ∀ pos, last ≤ pos → pos < start → ∀ m ∈ marks, t.hasAt pos m = false) :
    MarksRead t d l condition marks start found where
  opened := h.opened
  covered pos hpos m hm hat := by
    rcases Nat.lt_or_ge pos last with hlt | hge
    · exact h.covered pos hlt m hm hat
    · rw [hnone pos hge hpos m hm] at hat
      cases hat

/-- A scan that rejects a mark goes on behind it. -/
lemma reject (h : MarksRead t d l condition marks start found)
    (hrejects : d.Rejects t l condition start) {m : Mark} (hm : m ∈ marks)
    (hat : t.hasAt start m = true) :
    MarksRead t d l condition marks (start + m.length) found where
  opened := h.opened
  covered pos hpos m' hm' hat' := by
    rcases Nat.lt_or_ge pos start with hlt | hge
    · exact h.covered pos hlt m' hm' hat'
    · exact .inr ⟨start, m, hm, hat, hge, hpos, hrejects⟩

/-- A scan that has found a comment goes on behind its line. -/
lemma push (h : MarksRead t d l condition marks start found)
    (hkeeps : ¬ d.Rejects t l condition start) (hat : marks.any (t.hasAt start) = true) :
    MarksRead t d l condition marks (t.lineEnd start)
      (found.push ⟨start, t.lineEnd start, .lineComment⟩) where
  opened iv hiv := by
    rcases Array.mem_push.mp hiv with hiv | rfl
    · exact h.opened iv hiv
    · exact ⟨hat, rfl, hkeeps⟩
  covered pos hpos m hm hat' := by
    rcases Nat.lt_or_ge pos start with hlt | hge
    · obtain ⟨iv, hiv, hc⟩ | hrejected := h.covered pos hlt m hm hat'
      · exact .inl ⟨iv, Array.mem_push.mpr (.inl hiv), hc⟩
      · exact .inr hrejected
    · exact .inl ⟨_, Array.mem_push.mpr (.inr rfl), Interval.contains_iff.mpr ⟨hge, hpos⟩⟩

end MarksRead

/-- **What the scan for line comments finds.** Every line comment starts at a mark that is not
rejected and ends with its line, and every mark of the document lies in a line comment or overlaps a
rejected mark.

**Proof sketch.** The scan has read every mark in front of the offset it stands at. A step goes to
the next mark, and behind it or to the end of its line. -/
theorem lineComments_spec (ht : t.Valid) (hd : ∀ rules, d.comments = some rules → rules.Proper)
    (hmarks : ∀ m ∈ marks, m.IsPlain) {harvest : Sweep.Harvest Interval}
    (h : Sweep.collect ((document t d).lineCommentStep l condition) t.size 0
      ((document t d).cursor, .new marks) = .ok harvest) :
    MarksRead t d l condition marks t.size harvest.items := by
  have hrange : ∀ pos, t.isBoundary pos = true → t.checkRange pos t.size = .ok () := fun pos hb =>
    Text.checkRange_eq_ok (Text.le_size_of_isBoundary hb) hb (Text.isBoundary_size t)
  refine Sweep.collect_induction
    (I := fun last state h => t.isBoundary last = true ∧ CursorOf t d state.1 ∧
      (∀ slot ∈ state.2.slots, MarkFinder.Knows t t.size last slot) ∧
      state.2.slots.map Prod.fst = marks ∧ MarksRead t d l condition marks last h.items)
    (Q := fun h => MarksRead t d l condition marks t.size h.items) ?_ ?_
    ⟨Text.isBoundary_zero t, CursorOf.new hd, MarkFinder.knows_new marks, MarkFinder.marks_new marks,
      .zero⟩ h
  · -- a step passes no mark, and the one that it finds is rejected or starts a comment
    rintro last ⟨cursor, finder⟩ found verdict next ⟨cursor', finder'⟩
      ⟨hb, hcursor, hknows, rfl, hread⟩ hstep -
    obtain ⟨hcursor', hfinder, start, length, hfound, hmove⟩ := lineCommentStep_eq_go hcursor hstep
    obtain ⟨hknows', hmarks'⟩ := MarkFinder.knows_find hknows (hrange last hb)
    have hfinder : finder' = (finder.find t last t.size).2 := hfinder
    subst hfinder
    rw [MarkFinder.find_eq_new hknows (hrange last hb)] at hfound
    obtain ⟨m, hm, rfl, hle, hend, hat⟩ := MarkFinder.exists_mark_of_find_new (hrange last hb) hfound
    have hplain := hmarks m hm
    have hpos : 0 < m.length := List.length_pos_iff.mpr hplain.1
    have hskip : MarksRead t d l condition (finder.slots.map Prod.fst) start found.items := by
      refine hread.skip fun pos h1 h2 m' hm' => ?_
      by_contra hat'
      rw [Bool.not_eq_false] at hat'
      have hfits := Text.le_size_of_hasAt hat' (hmarks m' hm').1
      rw [MarkFinder.find_new_eq_some (hrange last hb) hfound hm' h1 h2 hfits] at hat'
      cases hat'
    rcases hmove with ⟨hrejects, rfl, rfl⟩ | ⟨hkeeps, rfl, rfl⟩
    · exact ⟨by omega, Text.isBoundary_add_length ht hplain hat, hcursor',
        fun slot hslot => (hknows' slot hslot).mono (by omega), hmarks',
        hskip.reject hrejects hm hat⟩
    · have hline := Text.add_length_le_lineEnd hplain hat
      have hany : (finder.slots.map Prod.fst).any (t.hasAt start) = true :=
        List.any_eq_true.mpr ⟨m, hm, hat⟩
      rw [Nat.max_eq_left hline]
      exact ⟨by omega, (Text.endsLine_lineEnd t start).isBoundary, hcursor',
        fun slot hslot => (hknows' slot hslot).mono (by omega), hmarks', hskip.push hkeeps hany⟩
  · -- the scan stops because no mark is left
    rintro last ⟨cursor, finder⟩ h ⟨hb, -, hknows, rfl, hread⟩ hstep
    have hnone := lineCommentStep_eq_stop hstep
    rw [MarkFinder.find_eq_new hknows (hrange last hb)] at hnone
    refine hread.skip fun pos h1 h2 m hm => ?_
    by_contra hat
    rw [Bool.not_eq_false] at hat
    have hfits := Text.le_size_of_hasAt hat (hmarks m hm).1
    rw [MarkFinder.find_new_eq_none (hrange last hb) hnone hm h1 hfits] at hat
    cases hat

end Frame

end LexPaint
