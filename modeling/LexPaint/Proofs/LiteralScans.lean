import LexPaint.Pass.Comment
import LexPaint.Pass.Heredoc
import LexPaint.Pass.Quote
import LexPaint.Pass.QuoteOperator
import LexPaint.Proofs.FrameSafety
import LexPaint.Proofs.Coverage

set_option relaxedAutoImplicit false
set_option autoImplicit false

/-!
# Scans for literals

Strings, comments, heredocs and quote operators are found by sweeps over the scope. None of their
steps asks for anything out of range, whatever the text is and however the scope cuts it, and what
they map lies side by side in the scope.

## Main results

* `Frame.quotes_ensures`, `Frame.lineComments_ensures`, `Frame.blockComments_ensures`: strings and
  comments.
* `Frame.heredocs_ensures`, `Frame.operators_ensures`: heredocs and quote operators.
-/

namespace LexPaint

/-! ### Mark finders -/

namespace MarkFinder

/-- What a finder remembers are occurrences of its marks that end by `hi`, and its marks are
plain. -/
def Sound (t : Text) (hi : Nat) (finder : MarkFinder) : Prop :=
  ∀ slot ∈ finder.slots, slot.1.IsPlain ∧
    ∀ p, slot.2 = .hit p → t.hasAt p slot.1 = true ∧ p + slot.1.length ≤ hi

variable {t : Text} {pos hi : Nat}

/-- A new finder remembers nothing, so it is sound. -/
lemma sound_new {marks : List Mark} (hm : ∀ m ∈ marks, m.IsPlain) : (new marks).Sound t hi := by
  intro slot hslot
  obtain ⟨m, hmem, rfl⟩ := List.mem_map.mp hslot
  exact ⟨hm m hmem, by simp⟩

/-- A refreshed slot keeps its mark, and what it knows is right and does not lie behind.

**Proof sketch.** A hit is kept if it does not lie behind, otherwise the mark is searched for again. -/
lemma refresh_bounds (pos : Nat) {slot : Mark × NextHit}
    (h : ∀ p, slot.2 = .hit p → t.hasAt p slot.1 = true ∧ p + slot.1.length ≤ hi) :
    (refresh t pos hi slot).1 = slot.1 ∧ ∀ p, (refresh t pos hi slot).2 = .hit p →
      pos ≤ p ∧ t.hasAt p slot.1 = true ∧ p + slot.1.length ≤ hi := by
  unfold refresh
  split
  · split
    · exact ⟨rfl, by simp⟩
    · split
      · rename_i p hp
        obtain ⟨h1, h2, h3⟩ := Text.find_bounds hp
        refine ⟨rfl, fun q hq => ?_⟩
        obtain rfl : p = q := by simpa using hq
        exact ⟨h1, h3, h2⟩
      · exact ⟨rfl, by simp⟩
  · rename_i hstale
    refine ⟨rfl, fun p hp => ⟨?_, h p hp⟩⟩
    rw [hp] at hstale
    simpa [NextHit.isStale] using hstale

/-- The nearest of several hits is one of them.

**Proof sketch.** Induction on the slots. -/
lemma mem_of_nearer {slots : List (Mark × NextHit)} {best : Option (Nat × Nat)} {p length : Nat}
    (h : slots.foldl nearer best = some (p, length)) :
    best = some (p, length) ∨ ∃ slot ∈ slots, slot.2 = .hit p ∧ slot.1.length = length := by
  induction slots generalizing best with
  | nil => exact .inl h
  | cons slot rest ih =>
    rw [List.foldl_cons] at h
    rcases ih h with h | ⟨x, hx, hhit, hlen⟩
    · unfold nearer at h
      split at h
      · rename_i q hq _
        obtain ⟨rfl, rfl⟩ : q = p ∧ slot.1.length = length := by simpa using h
        exact .inr ⟨slot, List.mem_cons_self .., hq, rfl⟩
      · rename_i q q' len' hq _
        split at h
        · obtain ⟨rfl, rfl⟩ : q = p ∧ slot.1.length = length := by simpa using h
          exact .inr ⟨slot, List.mem_cons_self .., hq, rfl⟩
        · exact .inl h
      · exact .inl h
    · exact .inr ⟨x, List.mem_cons_of_mem _ hx, hhit, hlen⟩

/-- A search keeps the finder sound, and what it finds is an occurrence of one of the marks.

**Proof sketch.** All slots are refreshed, and the nearest hit is that of one of them. -/
lemma Sound.find {finder : MarkFinder} (h : finder.Sound t hi) (pos : Nat) :
    (finder.find t pos hi).2.Sound t hi ∧
      ∀ p length, (finder.find t pos hi).1 = some (p, length) →
        ∃ m : Mark, m.IsPlain ∧ m.length = length ∧ pos ≤ p ∧ t.hasAt p m = true ∧
          p + m.length ≤ hi := by
  unfold MarkFinder.find
  dsimp only
  refine ⟨fun slot hslot => ?_, fun p length hp => ?_⟩
  · obtain ⟨old, hold, rfl⟩ := List.mem_map.mp hslot
    obtain ⟨hplain, hhit⟩ := h old hold
    obtain ⟨hmark, hbounds⟩ := refresh_bounds pos hhit
    rw [hmark]
    exact ⟨hplain, fun p hp => (hbounds p hp).2⟩
  · rcases mem_of_nearer hp with hnone | ⟨slot, hslot, hhit, hlen⟩
    · cases hnone
    · obtain ⟨old, hold, rfl⟩ := List.mem_map.mp hslot
      obtain ⟨hplain, hknown⟩ := h old hold
      obtain ⟨hmark, hbounds⟩ := refresh_bounds pos hknown
      rw [hmark] at hlen
      obtain ⟨h1, h2, h3⟩ := hbounds p hhit
      exact ⟨old.1, hplain, hlen, h1, h2, h3⟩

end MarkFinder

/-! ### Openers and terminators of heredocs -/

namespace HeredocRules

variable {t : Text} {pos : Nat}

/-- A tag without quotes is not empty and lies in the text. -/
lemma tagEnd_bounds {stop : Nat} (h : tagEnd t pos = some stop) : pos < stop ∧ stop ≤ t.size := by
  unfold tagEnd at h
  split at h
  · rename_i hp
    have hlt := Text.lt_size_of_byteIs hp
    have h1 := Text.le_skipChars t Unicode.isTagChar (pos + 1) t.size
    have h2 := Text.skipChars_le t Unicode.isTagChar (pos + 1) t.size
    obtain rfl := Option.some.inj h
    omega
  · cases h

/-- A tag is not empty and lies in the text, with the quotes around it. -/
lemma tagAt_bounds {tag : Mark} {stop : Nat} (h : tagAt t pos = some (tag, stop)) :
    pos < stop ∧ stop ≤ t.size := by
  unfold tagAt at h
  split at h
  · rw [Option.bind_eq_bind, Option.bind_eq_some_iff] at h
    obtain ⟨last, hlast, hq⟩ := h
    have := tagEnd_bounds hlast
    split at hq
    · rename_i hc
      have hlt := Text.lt_size_of_byteIs hc
      obtain ⟨-, rfl⟩ : _ ∧ last + 1 = stop := by simpa using hq
      omega
    · cases hq
  · rw [Option.bind_eq_bind, Option.bind_eq_some_iff] at h
    obtain ⟨last, hlast, hq⟩ := h
    obtain ⟨-, rfl⟩ : _ ∧ last = stop := by simpa using hq
    exact tagEnd_bounds hlast

/-- An opener starts with its mark, is not empty and lies in the text. -/
lemma openerAt_bounds (r : HeredocRules) {opener : HeredocOpener}
    (h : r.openerAt t pos = some opener) :
    opener.start = pos ∧ pos < opener.stop ∧ opener.stop ≤ t.size ∧
      t.hasAt pos r.opener = true := by
  unfold openerAt at h
  split at h
  · rename_i hat
    dsimp only at h
    rw [Option.bind_eq_bind, Option.bind_eq_some_iff] at h
    obtain ⟨⟨tag, stop⟩, htag, hq⟩ := h
    have hb := tagAt_bounds htag
    obtain rfl := Option.some.inj hq
    refine ⟨rfl, ?_, hb.2, hat⟩
    refine Nat.lt_of_le_of_lt ?_ hb.1
    have hflag (c : Bool) : pos ≤ if c then pos + r.opener.length + 1 else pos + r.opener.length := by
      split <;> omega
    split
    · exact Nat.le_trans (hflag _) (Text.le_skipBytes ..)
    · exact hflag _
  · cases h

/-- An opener is not empty, lies in the text and starts with its mark.

**Proof sketch.** Induction along the search. -/
lemma nextOpener_bounds (r : HeredocRules) {opener : HeredocOpener}
    (h : r.nextOpener t pos = some opener) :
    pos ≤ opener.start ∧ opener.start < opener.stop ∧ opener.stop ≤ t.size ∧
      t.hasAt opener.start r.opener = true := by
  fun_induction nextOpener r t pos with
  | case1 pos hlt found hfound =>
    obtain rfl := Option.some.inj h
    obtain ⟨rfl, h2⟩ := r.openerAt_bounds hfound
    exact ⟨Nat.le_refl _, h2⟩
  | case2 pos hlt hnone ih =>
    obtain ⟨h1, h2⟩ := ih h
    exact ⟨by omega, h2⟩
  | case3 => cases h

/-- The next opener stands where the search says. -/
lemma openerAt_of_nextOpener (r : HeredocRules) {opener : HeredocOpener}
    (h : r.nextOpener t pos = some opener) : r.openerAt t opener.start = some opener := by
  fun_induction nextOpener r t pos with
  | case1 pos hlt found hfound =>
    obtain rfl := Option.some.inj h
    rwa [(r.openerAt_bounds hfound).1]
  | case2 pos hlt hnone ih => exact ih h
  | case3 => cases h

/-- A heredoc is closed on the line that was tested. -/
lemma terminatorEnd_le (r : HeredocRules) {line : Text} {tag : Mark} {indented : Bool}
    {offset : Nat} (h : r.terminatorEnd line tag indented = some offset) : offset ≤ line.size := by
  have hstop : (if line.byteIs (· == 0x0D) (line.size - 1) then line.size - 1 else line.size) ≤
      line.size := by
    split <;> omega
  unfold terminatorEnd at h
  dsimp only at h
  generalize (if line.byteIs (· == 0x0D) (line.size - 1) then line.size - 1 else line.size) = stop
    at h hstop
  split at h
  · generalize (if indented then line.skipBlanks 0 stop else 0) = start at h
    split at h
    · obtain rfl := Option.some.inj h
      exact hstop
    · cases h
  · split at h
    · rename_i hc
      rw [Bool.and_eq_true, decide_eq_true_eq] at hc
      split at h
      · cases h
      · obtain rfl := Option.some.inj h
        exact Nat.le_trans hc.1 hstop
    · cases h

end HeredocRules

/-! ### Parts of quote operators -/

namespace QuoteOperatorRules

variable {t : Text} {pos hi : Nat}

/-- Letters are ASCII bytes. -/
lemma isLetter_ascii {b : UInt8} (h : isLetter b = true) : b < 0x80 := by
  have hall : ∀ n : Fin 256, isLetter (UInt8.ofFin n) = true → UInt8.ofFin n < 0x80 := by
    decide +kernel
  simpa using hall b.toFin (by simpa using h)

/-- A delimiter lies in the range. -/
lemma delimiterAt_bounds {start : Nat} (h : delimiterAt t pos hi = some start) :
    pos ≤ start ∧ start < hi := by
  unfold delimiterAt at h
  dsimp only at h
  split at h
  · rename_i hc
    obtain rfl := Option.some.inj h
    rw [Bool.and_eq_true, decide_eq_true_eq] at hc
    exact ⟨Text.le_skipBytes .., hc.1⟩
  · cases h

/-- A part ends behind its closer, or with the range. -/
lemma closeFrom_bounds (opener closer : UInt8) (depth i hi : Nat) :
    closeFrom t opener closer depth i hi ≤ hi ∧
      (closeFrom t opener closer depth i hi = hi ∨ i < closeFrom t opener closer depth i hi) := by
  fun_induction closeFrom t opener closer depth i hi with
  | case1 depth i hlt hb ih => exact ⟨ih.1, ih.2.imp_right fun _ => by omega⟩
  | case2 depth i hlt hb ho ih => exact ⟨ih.1, ih.2.imp_right fun _ => by omega⟩
  | case3 i hlt => exact ⟨by omega, .inr (by omega)⟩
  | case4 i hlt hb ho hc d ih => exact ⟨ih.1, ih.2.imp_right fun _ => by omega⟩
  | case5 depth i hlt hb ho hc ih => exact ⟨ih.1, ih.2.imp_right fun _ => by omega⟩
  | case6 => exact ⟨Nat.le_refl _, .inl rfl⟩

/-- A part that starts in the range has an end, which lies in the range. -/
lemma delimitedEnd_ensures {start : Nat} (hlt : start < hi) (hhi : hi ≤ t.size) :
    Ensures (delimitedEnd t start hi) fun stop => start < stop ∧ stop ≤ hi := by
  have hsize : start < t.bytes.size := Nat.lt_of_lt_of_le hlt hhi
  unfold delimitedEnd
  rw [Text.byteAt_eq_getElem hsize]
  have := closeFrom_bounds (t := t) t.bytes[start] (closerOf t.bytes[start]) 0 (start + 1) hi
  exact .ok ⟨by omega, this.1⟩

/-- A quote operator ends behind its first delimiter and in the range.

**Proof sketch.** By cases on the parts of the operator. The end of each part lies behind its start. -/
lemma operatorEnd_ensures (r : QuoteOperatorRules) (operator : Mark) {start : Nat}
    (hlt : start < hi) (hhi : hi ≤ t.size) :
    Ensures (r.operatorEnd t operator start hi) fun stop => start < stop ∧ stop ≤ hi := by
  unfold operatorEnd
  refine .bind (delimitedEnd_ensures hlt hhi) fun stop hstop => ?_
  refine .ite (fun hc => ?_) fun _ => .pure hstop
  rw [Bool.and_eq_true, decide_eq_true_eq] at hc
  refine .ite (fun _ => ?_) fun _ => ?_
  · split
    · rename_i second hsecond
      have := delimiterAt_bounds hsecond
      exact (delimitedEnd_ensures this.2 hhi).mono fun last hlast => ⟨by omega, hlast.2⟩
    · exact .pure hstop
  · refine .bind (.minus (by omega)) fun middle hmiddle => ?_
    exact (delimitedEnd_ensures (by omega) hhi).mono fun last hlast => ⟨by omega, hlast.2⟩

end QuoteOperatorRules

namespace Frame

variable {f : Frame} {l : Layout} {pos : Nat}

/-! ### Strings -/

/-- The tests of a quote succeed everywhere in the scope. -/
lemma refusesQuote_ensures (hf : f.WellFormed) (hlo : f.lo ≤ pos) (hhi : pos ≤ f.hi)
    (cursor : Option CommentCursor) : Ensures (f.refusesQuote l pos cursor) fun _ => True := by
  have hle := hf.hi_le
  unfold refusesQuote
  refine .bind (P := fun _ => True) ?_ fun escaped _ => ?_
  · exact .bind (Text.checkBytes_ensures (Nat.zero_le _) (by omega)) fun _ _ => .pure trivial
  · refine .ite (fun _ => .pure trivial) fun _ => .ite (fun _ => .pure trivial) fun _ => ?_
    refine .bind (behindLineComment_ensures hlo) fun behind _ => ?_
    exact .ite (fun _ => .pure trivial) fun _ => .pure trivial

/-- A text block ends in the scope. -/
lemma textBlockEnd_bounds (quote : UInt8) (h : pos + 3 ≤ f.hi) :
    pos < f.textBlockEnd quote pos ∧ f.textBlockEnd quote pos ≤ f.hi := by
  unfold textBlockEnd
  split
  · rename_i i hi
    obtain ⟨h1, h2, -⟩ := Text.findUnescaped_bounds hi
    have h2' : i + 3 ≤ f.hi := h2
    omega
  · omega

/-- A string ends in the scope. -/
lemma quoteEnd_bounds (singleLine : Bool) (quote : UInt8) (h : pos < f.hi) :
    pos < f.quoteEnd singleLine quote pos ∧ f.quoteEnd singleLine quote pos ≤ f.hi := by
  unfold quoteEnd
  split
  · rename_i i hi
    have := Text.findClosing_found_bounds hi
    omega
  · rename_i i hi
    have := Text.findClosing_lineEnd_bounds hi
    omega
  · omega

/-- A string starts at its quote and does not reach beyond the scope.

**Proof sketch.** The dialect is asked only where three quotes fit into the scope. A text block ends
behind its three quotes, any other string behind its first one. -/
lemma stringAt_ensures (hf : f.WellFormed) (condition : Condition) (singleLine : Bool)
    (quote : UInt8) (hlo : f.lo ≤ pos) (hhi : pos < f.hi) (hb : f.text.isBoundary pos = true) :
    Ensures (f.stringAt condition singleLine quote pos) fun iv =>
      iv.start = pos ∧ pos < iv.stop ∧ iv.stop ≤ f.hi ∧ iv.kind.sort = .quotes := by
  unfold stringAt
  refine .bind (P := fun opens => opens = true → pos + 3 ≤ f.hi) ?_ fun opens hopens => ?_
  · unfold opensTextBlock
    refine .ite (fun h => ?_) fun _ => .pure (by simp)
    simp only [Bool.and_eq_true, decide_eq_true_eq] at h
    exact (accepts_ensures hf hlo (Nat.le_of_lt hhi) hb condition).mono fun _ _ _ => h.1.2
  · refine .ite (fun h => ?_) fun _ => ?_
    · obtain ⟨h1, h2⟩ := textBlockEnd_bounds quote (hopens h)
      exact .pure ⟨rfl, h1, h2, rfl⟩
    · obtain ⟨h1, h2⟩ := quoteEnd_bounds singleLine quote hhi
      refine .pure ⟨rfl, h1, h2, ?_⟩
      dsimp only
      split <;> rfl

/-- Quotes are ASCII bytes. -/
lemma isQuote_ascii {b : UInt8} (h : isQuote b = true) : b < 0x80 := by
  have h' : b = doubleQuote ∨ b = singleQuote := by simpa [isQuote] using h
  rcases h' with rfl | rfl <;> decide

/-- A step of the scan for strings succeeds, goes on and maps at most the string that it passes. -/
lemma quoteStep_ensures (hf : f.WellFormed) (condition : Condition) (singleLine : Bool)
    (cursor : Option CommentCursor) (hlo : f.lo ≤ pos) (hhi : pos ≤ f.hi) :
    Ensures (f.quoteStep l condition singleLine pos cursor)
      (Sweep.Move.Tiles 0 f.hi (fun _ _ => True) (fun iv => [iv]) (fun iv => iv.kind.sort = .quotes)
        pos) := by
  unfold quoteStep
  refine .bind (Text.checkBytes_ensures hhi hf.hi_le) fun _ _ => ?_
  split
  · exact .pure trivial
  · rename_i start hstart
    obtain ⟨h1, h2, hq⟩ := Text.findByte_bounds hstart
    obtain ⟨b, hb, hqb⟩ := Text.byteIs_iff.mp hq
    have hbound := Text.isBoundary_of_ascii hb (isQuote_ascii hqb)
    refine .bind (refusesQuote_ensures hf (by omega) (by omega) cursor) fun r _ => ?_
    refine .ite (fun _ => .pure ⟨by omega, by omega, trivial, by simp⟩) fun _ => ?_
    refine .bind (stringAt_ensures hf condition singleLine _ (by omega) h2 hbound) fun iv hiv => ?_
    refine .pure ⟨by omega, by omega, trivial, fun a ha => ?_⟩
    cases ha
    exact ⟨.singleton (by omega) (by omega) (by omega), hiv.2.2.2⟩

/-- The strings of a scope lie side by side. -/
theorem quotes_ensures (hf : f.WellFormed) (l : Layout) (condition : Condition)
    (singleLine : Bool) :
    Ensures (Sweep.collect (f.quoteStep l condition singleLine) f.hi f.lo f.cursor) fun h =>
      Tiles f.lo f.hi h.items.toList ∧ ∀ iv ∈ h.items, iv.kind.sort = .quotes := by
  exact Sweep.collect_intervals
    (fun pos cursor hlo hhi _ => quoteStep_ensures hf condition singleLine cursor hlo hhi)
    hf.ordered trivial

/-! ### Line comments -/

/-- A candidate at a boundary behind the start of the scope is accepted or refused. -/
lemma refusesLineComment_ensures (hf : f.WellFormed) (condition : Condition) (hlo : f.lo ≤ pos)
    (hhi : pos ≤ f.hi) (hb : f.text.isBoundary pos = true) (cursor : Option CommentCursor) :
    Ensures (f.refusesLineComment l condition pos cursor) fun _ => True := by
  unfold refusesLineComment
  refine .ite (fun _ => .pure trivial) fun _ => ?_
  dsimp only
  refine .ite (fun _ => .pure trivial) fun _ => ?_
  exact .bind (accepts_ensures hf hlo hhi hb condition) fun _ _ => .pure trivial

/-- A step of the scan for line comments succeeds, goes on and maps at most the comment that it
passes. **Proof sketch.** The finder stays sound, so what it finds is a mark of the scope behind the
offset. A comment reaches from there to the end of its line. -/
lemma lineCommentStep_ensures (hf : f.WellFormed) (condition : Condition)
    (state : Option CommentCursor × MarkFinder) (hlo : f.lo ≤ pos)
    (hfinder : state.2.Sound f.text f.hi) :
    Ensures (f.lineCommentStep l condition pos state)
      (Sweep.Move.Tiles 0 f.hi (fun _ state => state.2.Sound f.text f.hi) (fun iv => [iv])
        (fun iv => f.text.isBoundary iv.start = true ∧ iv.kind = .lineComment) pos) := by
  have hle := hf.hi_le
  obtain ⟨hsound, hhit⟩ := hfinder.find pos
  unfold lineCommentStep
  dsimp only
  split
  · exact .pure trivial
  · rename_i start length hfound
    obtain ⟨m, hm, rfl, hpos, hat, hend⟩ := hhit start length hfound
    have hb := Text.isBoundary_of_hasAt hm hat
    refine .bind (refusesLineComment_ensures hf condition (by omega) (by omega) hb state.1)
      fun r _ => ?_
    refine .ite (fun _ => .pure ⟨by omega, by omega, hsound, by simp⟩) fun _ => ?_
    have hline : start ≤ f.text.lineEnd start := Text.le_lineEnd (by omega)
    refine .pure ⟨by omega, by omega, hsound, fun a ha => ?_⟩
    cases ha
    refine ⟨.singleton (by simpa using hpos) ?_ ?_, hb, rfl⟩
    · show start ≤ min (f.text.lineEnd start) f.hi
      omega
    · show min (f.text.lineEnd start) f.hi ≤ 0 + max _ _
      omega

/-- The line comments of a scope lie side by side and start at boundaries. -/
theorem lineComments_ensures (hf : f.WellFormed) (l : Layout) (condition : Condition)
    {marks : List Mark} (hm : ∀ m ∈ marks, m.IsPlain) :
    Ensures (Sweep.collect (f.lineCommentStep l condition) f.hi f.lo (f.cursor, .new marks))
      fun h => Tiles f.lo f.hi h.items.toList ∧
        ∀ iv ∈ h.items, f.text.isBoundary iv.start = true ∧ iv.kind = .lineComment := by
  exact Sweep.collect_intervals
    (fun pos state hlo _ hfinder =>
      lineCommentStep_ensures hf condition state hlo hfinder)
    hf.ordered (MarkFinder.sound_new hm)

/-! ### Block comments -/

/-- The test for a line comment that starts in front of an opener succeeds at every boundary. -/
lemma afterCommentStart_ensures (starts : Array Nat) (hb : f.text.isBoundary pos = true)
    (hstarts : ∀ start ∈ starts, f.text.isBoundary start = true) :
    Ensures (f.afterCommentStart starts pos) fun _ => True := by
  unfold afterCommentStart
  split
  · exact .pure trivial
  · rename_i n hn
    obtain ⟨start, hstart, hle⟩ := holdsAt_iff.mp (holdsAt_of_bisect hn)
    simp only [hstart, Option.getD_some]
    have hsb := hstarts start (Array.mem_of_getElem? hstart)
    exact .bind (Text.checkRange_ensures (of_decide_eq_true hle) hsb hb) fun _ _ => .pure trivial

/-- The tests of an opener succeed at every boundary of the scope. -/
lemma refusesBlockComment_ensures (hf : f.WellFormed) (condition : Condition) (ignoreQuoted : Bool)
    (hlo : f.lo ≤ pos) (hhi : pos ≤ f.hi) (hb : f.text.isBoundary pos = true)
    (hstarts : ∀ start ∈ l.commentStarts, f.text.isBoundary start = true) (blocks : IntervalSet) :
    Ensures (f.refusesBlockComment l condition ignoreQuoted pos blocks) fun _ => True := by
  unfold refusesBlockComment
  refine .ite (fun _ => .pure trivial) fun _ => ?_
  refine .bind (afterCommentStart_ensures _ hb hstarts) fun after _ => ?_
  refine .ite (fun _ => .pure trivial) fun _ => ?_
  exact .bind (accepts_ensures hf hlo hhi hb condition) fun _ _ => .pure trivial

/-- The end of the block comment whose body starts at an offset. -/
def blockEnd (f : Frame) (closer : Mark) (body : Nat) : Nat :=
  match f.text.find closer body f.hi with
  | some i => i + closer.length
  | none => f.hi

/-- A block comment ends behind the start of its body. -/
lemma le_blockEnd (closer : Mark) {body : Nat} (hbody : body ≤ f.hi) :
    body ≤ f.blockEnd closer body := by
  unfold blockEnd
  split
  · rename_i i hi
    have hle := (Text.find_bounds hi).1
    omega
  · exact hbody

/-- A block comment ends in the scope. -/
lemma blockEnd_le (f : Frame) (closer : Mark) (body : Nat) : f.blockEnd closer body ≤ f.hi := by
  unfold blockEnd
  split
  · rename_i i hi
    exact (Text.find_bounds hi).2.1
  · exact Nat.le_refl _

/-- A block comment ends in the scope, at a boundary. -/
lemma blockEnd_bounds (hf : f.WellFormed) {closer : Mark} (hcloser : closer.IsPlain)
    {body : Nat} (hbody : body ≤ f.hi) :
    body ≤ f.blockEnd closer body ∧ f.blockEnd closer body ≤ f.hi ∧
      f.text.isBoundary (f.blockEnd closer body) = true := by
  refine ⟨le_blockEnd closer hbody, f.blockEnd_le closer body, ?_⟩
  unfold blockEnd
  split
  · rename_i i hi
    exact Text.isBoundary_add_length hf.valid hcloser (Text.find_bounds hi).2.2
  · exact hf.hiBoundary

/-- A block comment between two marks. -/
structure IsBlock (f : Frame) (opener closer : Mark) (iv : Interval) : Prop where
  opens : f.text.hasAt iv.start opener = true
  fits : iv.start + opener.length ≤ f.hi
  stop_eq : iv.stop = f.blockEnd closer (iv.start + opener.length)
  kind_eq : iv.kind = .blockComment

/-- A step of the scan for block comments succeeds, goes on and maps at most the comment that it
passes. **Proof sketch.** The scan stands at a boundary, which the search for the opener asks for. An
opener that is refused is a single character further on, and a comment ends at a boundary. -/
lemma blockCommentStep_ensures (hf : f.WellFormed) (condition : Condition) {opener closer : Mark}
    (hopener : opener.IsPlain) (hcloser : closer.IsPlain) (ignoreQuoted : Bool)
    (hstarts : ∀ start ∈ l.commentStarts, f.text.isBoundary start = true) (blocks : IntervalSet)
    (hlo : f.lo ≤ pos) (hhi : pos ≤ f.hi) (hb : f.text.isBoundary pos = true) :
    Ensures (f.blockCommentStep l condition opener closer ignoreQuoted pos blocks)
      (Sweep.Move.Tiles 0 f.hi (fun pos _ => f.text.isBoundary pos = true) (fun iv => [iv])
        (f.IsBlock opener closer) pos) := by
  unfold blockCommentStep
  refine .bind (Text.checkRange_ensures hhi hb hf.hiBoundary) fun _ _ => ?_
  split
  · exact .pure trivial
  · rename_i start hstart
    obtain ⟨h1, h2, hat⟩ := Text.find_bounds hstart
    have hsb := Text.isBoundary_of_hasAt hopener hat
    have hbody := Text.isBoundary_add_length hf.valid hopener hat
    dsimp only
    refine .bind (refusesBlockComment_ensures hf condition ignoreQuoted (by omega) (by omega) hsb
      hstarts blocks) fun refused _ => ?_
    refine .ite (fun _ => .pure ⟨by omega, by omega, hbody, by simp⟩) fun _ => ?_
    refine .bind (Text.checkRange_ensures h2 hbody hf.hiBoundary) fun _ _ => ?_
    -- the comment ends behind its open mark
    obtain ⟨h3, h4, h5⟩ := blockEnd_bounds hf hcloser h2
    refine .pure ⟨?_, ?_, ?_, fun a ha => ?_⟩
    · show pos ≤ max (f.blockEnd closer (start + opener.length)) (start + opener.length)
      omega
    · show max (f.blockEnd closer (start + opener.length)) (start + opener.length) ≤ f.hi
      omega
    · show f.text.isBoundary (max (f.blockEnd closer (start + opener.length)) _) = true
      rwa [Nat.max_eq_left h3]
    · cases ha
      have hle : start ≤ f.blockEnd closer (start + opener.length) := by omega
      exact ⟨.singleton (by simpa using h1) hle (by rw [Nat.zero_add]; exact Nat.le_max_left _ _),
        hat, h2, rfl, rfl⟩

/-- The block comments that a sweep maps lie side by side. -/
theorem blockComments_ensures (hf : f.WellFormed) (condition : Condition) {opener closer : Mark}
    (hopener : opener.IsPlain) (hcloser : closer.IsPlain) (ignoreQuoted : Bool)
    (hstarts : ∀ start ∈ l.commentStarts, f.text.isBoundary start = true) (blocks : IntervalSet) :
    Ensures
      (Sweep.collect (f.blockCommentStep l condition opener closer ignoreQuoted) f.hi f.lo blocks)
      fun h => Tiles f.lo f.hi h.items.toList ∧ ∀ iv ∈ h.items, f.IsBlock opener closer iv := by
  exact Sweep.collect_intervals
    (fun pos blocks hlo hhi hb => blockCommentStep_ensures hf condition hopener hcloser
      ignoreQuoted hstarts blocks hlo hhi hb)
    hf.ordered hf.loBoundary

/-! ### Heredocs -/

/-- A body that starts at a boundary of the scope ends in the scope.

**Proof sketch.** Induction on what is left of the scope. The next line starts behind a newline,
which is a boundary, or the scope ends first. -/
lemma bodyEnd_ensures (hf : f.WellFormed) (r : HeredocRules) (opener : HeredocOpener) {line : Nat}
    (hline : f.text.isBoundary line = true ∨ f.hi < line) :
    Ensures (f.bodyEnd r opener line) fun stop =>
      stop ≤ f.hi ∧ (stop = f.hi ∨ line ≤ stop) := by
  induction hn : f.hi - line using Nat.strongRecOn generalizing line with
  | _ n ih =>
    rw [bodyEnd]
    refine .ite (fun hlt => ?_) fun hge => .pure ⟨Nat.le_refl _, .inl rfl⟩
    have hb : f.text.isBoundary line = true := by
      rcases hline with h | h
      · exact h
      · omega
    have hle := hf.hi_le
    have hend : line ≤ f.text.lineEnd line := Text.le_lineEnd (by omega)
    dsimp only
    have hstop : f.text.isBoundary (min (f.text.lineEnd line) f.hi) = true :=
      Text.isBoundary_min (Text.endsLine_lineEnd _ _).isBoundary hf.hiBoundary
    refine .bind (Text.slice_ensures (by omega) hb hstop) fun part hpart => ?_
    subst hpart
    have hsize := Text.size_between f.text line (Text.le_size_of_isBoundary hstop)
    split
    · rename_i offset hoffset
      have := r.terminatorEnd_le hoffset
      exact .pure ⟨by omega, .inr (by omega)⟩
    · refine (ih _ ?_ ?_ rfl).mono fun stop hs => ⟨hs.1, ?_⟩
      · omega
      · -- the next line is a line of the scope unless the scope ends with this one
        rcases Nat.lt_or_ge (f.text.lineEnd line) f.hi with hlt' | hge
        · left
          rcases Text.endsLine_lineEnd f.text line with hs | hnl
          · omega
          · rw [Nat.min_eq_left (by omega), Nat.max_eq_left (by omega)]
            exact Text.isBoundary_succ_of_ascii hf.valid hnl (by decide)
        · right
          omega
      · rcases hs.2 with hs | hs
        · exact .inl hs
        · exact .inr (by omega)

/-- The tests of an opener of a heredoc succeed at every boundary of the scope. -/
lemma refusesHeredoc_ensures (hf : f.WellFormed) (hlo : f.lo ≤ pos) (hhi : pos ≤ f.hi)
    (hb : f.text.isBoundary pos = true) (cursor : Option CommentCursor) :
    Ensures (f.refusesHeredoc pos cursor) fun _ => True := by
  unfold refusesHeredoc
  refine .bind (behindLineComment_ensures hlo) fun behind _ => ?_
  refine .ite (fun _ => .pure trivial) fun _ => ?_
  dsimp only
  refine .ite (fun _ => .pure trivial) fun _ => ?_
  exact .bind (accepts_ensures hf hlo hhi hb .heredoc) fun _ _ => .pure trivial

/-- The intervals of a heredoc: its opener and its body. -/
def heredocIntervals (found : Interval × Interval) : List Interval :=
  [found.1, found.2]

/-- The two parts of a heredoc: an opener of the scope, and a body that starts on the next line. -/
structure IsHeredoc (f : Frame) (r : HeredocRules) (found : Interval × Interval) : Prop where
  opener : ∃ o : HeredocOpener, r.openerAt f.scope o.start = some o ∧
    found.1 = ⟨f.lo + o.start, f.lo + o.stop, .heredocTag⟩
  bodyStart : found.2.start = min (f.text.lineEnd found.1.stop + 1) f.hi
  bodyKind : found.2.kind = .heredoc

/-- The offsets of this sweep are offsets in the scope.

**Proof sketch.** An opener lies on its line, and the body starts on the line behind it, or at the
end of the scope. So the two lie side by side, and the step goes on behind them. -/
lemma heredocStep_ensures (hf : f.WellFormed) {r : HeredocRules} (hr : r.opener.IsPlain)
    (cursor : Option CommentCursor) :
    Ensures (f.heredocStep r pos cursor)
      (Sweep.Move.Tiles f.lo f.scope.size (fun _ _ => True) heredocIntervals (f.IsHeredoc r)
        pos) := by
  have hle := hf.hi_le
  have hsize := hf.size_scope
  have hord := hf.ordered
  unfold heredocStep
  split
  · exact .pure trivial
  · rename_i opener hopener
    obtain ⟨h1, h2, h3, hat⟩ := r.nextOpener_bounds hopener
    have hparts := r.openerAt_of_nextOpener hopener
    have hb : f.text.isBoundary (f.lo + opener.start) = true := by
      rw [← hf.isBoundary_scope (by omega)]
      exact Text.isBoundary_of_hasAt hr hat
    dsimp only
    refine .bind (refusesHeredoc_ensures hf (by omega) (by omega) hb cursor) fun r' _ => ?_
    refine .ite (fun _ => .pure ⟨by omega, by omega, trivial, by simp⟩) fun _ => ?_
    have hline : f.lo + opener.stop ≤ f.text.lineEnd (f.lo + opener.stop) :=
      Text.le_lineEnd (by omega)
    have hbody := Text.isBoundary_min_lineEnd_succ (f.lo + opener.stop) hf.valid hf.hiBoundary
    refine .bind (bodyEnd_ensures hf r opener (.inl hbody)) fun bodyStop hstop => ?_
    have hstop' : min (f.text.lineEnd (f.lo + opener.stop) + 1) f.hi ≤ bodyStop := by
      rcases hstop.2 with h | h <;> omega
    refine .bind (.minus (by omega)) fun next hnext => ?_
    refine .pure ⟨by omega, by omega, trivial, fun a ha => ?_⟩
    cases ha
    refine ⟨?_, ⟨_, hparts, rfl⟩, rfl, rfl⟩
    -- the opener, and behind its line the body
    have htag : Tiles (f.lo + pos) (f.lo + opener.stop)
        [⟨f.lo + opener.start, f.lo + opener.stop, .heredocTag⟩] :=
      .singleton (Nat.add_le_add_left h1 _) (Nat.add_le_add_left (Nat.le_of_lt h2) _)
        (Nat.le_refl _)
    have hbody : Tiles (f.lo + opener.stop) (f.lo + next)
        [⟨min (f.text.lineEnd (f.lo + opener.stop) + 1) f.hi, bodyStop, .heredoc⟩] :=
      .singleton (Nat.le_min.mpr ⟨by omega, by omega⟩) hstop'
        (show bodyStop ≤ f.lo + next by omega)
    exact htag.append hbody (by omega) (by omega)

/-- The openers and the bodies of heredocs lie side by side.

**Proof sketch.** The rule for sweeps whose finds lie side by side, with offsets moved by the start
of the scope. -/
theorem heredocs_ensures (hf : f.WellFormed) {r : HeredocRules} (hr : r.opener.IsPlain) :
    Ensures (Sweep.collect (f.heredocStep r) f.scope.size 0 f.cursor) fun h =>
      Tiles f.lo f.hi (h.items.toList.flatMap heredocIntervals) ∧
        ∀ found ∈ h.items, f.IsHeredoc r found := by
  have hsize := hf.size_scope
  have hord := hf.ordered
  refine (Sweep.collect_tiles f.lo
    (fun pos cursor _ _ _ => heredocStep_ensures hf hr cursor)
    (Nat.zero_le _) trivial).mono fun h hh => ?_
  have := hh.1
  rw [Nat.add_zero, show f.lo + f.scope.size = f.hi by omega] at this
  exact ⟨this, hh.2⟩

/-! ### Quote operators -/

/-- A candidate is an operator that starts with a letter, and what delimits it comes next.

**Proof sketch.** By cases on the tests of the candidate. -/
lemma operatorCandidate_eq_some {r : QuoteOperatorRules} {operator : Mark} {delimiter : Nat}
    (h : f.operatorCandidate r pos = some (operator, delimiter)) :
    f.text.byteIs QuoteOperatorRules.isLetter pos = true ∧
      r.operatorAt f.text pos f.hi = some operator ∧
      QuoteOperatorRules.delimiterAt f.text (pos + operator.length) f.hi = some delimiter := by
  unfold operatorCandidate at h
  by_cases hletter : f.text.byteIs QuoteOperatorRules.isLetter pos = true
  · by_cases hw : (decide (f.lo < pos) &&
        f.text.byteIs QuoteOperatorRules.isWordByte (pos - 1)) = true
    · simp [hletter, hw] at h
    · simp only [hletter, hw, Bool.not_true, Bool.false_eq_true, if_false, Option.bind_eq_bind,
        Option.bind_eq_some_iff] at h
      obtain ⟨op, hop, start, hstart, h⟩ := h
      obtain ⟨rfl, rfl⟩ : op = operator ∧ start = delimiter := by simpa using h
      exact ⟨hletter, hop, hstart⟩
  · simp [hletter] at h

/-- A candidate starts at a boundary, and its delimiter lies behind it in the scope. -/
lemma operatorCandidate_bounds {r : QuoteOperatorRules} {operator : Mark} {delimiter : Nat}
    (h : f.operatorCandidate r pos = some (operator, delimiter)) :
    f.text.isBoundary pos = true ∧ pos + operator.length ≤ delimiter ∧ delimiter < f.hi := by
  obtain ⟨hletter, -, hdelimiter⟩ := operatorCandidate_eq_some h
  obtain ⟨b, hb, hlb⟩ := Text.byteIs_iff.mp hletter
  exact ⟨Text.isBoundary_of_ascii hb (QuoteOperatorRules.isLetter_ascii hlb),
    QuoteOperatorRules.delimiterAt_bounds hdelimiter⟩

/-- An operator that is not refused does not start inside a heredoc. -/
lemma refusesOperator_ensures (hf : f.WellFormed) (hlo : f.lo ≤ pos) (hhi : pos ≤ f.hi)
    (hb : f.text.isBoundary pos = true) :
    Ensures (f.refusesOperator l pos) fun refused =>
      refused = false → (l.composite.heredocs.inString pos).isNone = true := by
  unfold refusesOperator
  refine .ite (fun _ => .pure (by simp)) fun hnone => ?_
  have hnone' : (l.composite.heredocs.inString pos).isNone = true := by simpa using hnone
  refine .bind (behindLineComment_ensures hlo) fun behind _ => ?_
  refine .ite (fun _ => .pure (by simp)) fun _ => ?_
  exact .bind (accepts_ensures hf hlo hhi hb .quoteOperator) fun _ _ => .pure fun _ => hnone'

/-- A step of the scan for quote operators succeeds, goes on and maps at most the operator that it
passes. -/
lemma operatorStep_ensures (hf : f.WellFormed) (r : QuoteOperatorRules) (hlo : f.lo ≤ pos)
    (hhi : pos ≤ f.hi) (u : Unit) :
    Ensures (f.operatorStep l r pos u)
      (Sweep.Move.Tiles 0 f.hi (fun _ _ => True) (fun iv => [iv])
        (fun iv => (l.composite.heredocs.inString iv.start).isNone = true ∧ iv.kind = .quoteOperator)
        pos) := by
  unfold operatorStep
  refine .ite (fun _ => .pure trivial) fun hlt => ?_
  refine .bind (Text.checkBytes_ensures hhi hf.hi_le) fun _ _ => ?_
  split
  · exact .pure ⟨by omega, by omega, trivial, by simp⟩
  · rename_i operator delimiter hfound
    obtain ⟨hb, h1, h2⟩ := operatorCandidate_bounds hfound
    dsimp only
    refine .bind (refusesOperator_ensures hf hlo hhi hb) fun refused hrefused => ?_
    refine .ite (fun _ => .pure ⟨by omega, by omega, trivial, by simp⟩) fun hn => ?_
    refine .bind (r.operatorEnd_ensures operator h2 hf.hi_le) fun stop hstop => ?_
    refine .pure ⟨by omega, by omega, trivial, fun a ha => ?_⟩
    cases ha
    have hle : pos ≤ stop := by omega
    exact ⟨.singleton (by simp) hle (by rw [Nat.zero_add]; exact Nat.le_max_left _ _),
      hrefused (by simpa using hn), rfl⟩

/-- The quote operators of a scope lie side by side, and none starts inside a heredoc. -/
theorem operators_ensures (hf : f.WellFormed) (l : Layout) (r : QuoteOperatorRules) :
    Ensures (Sweep.collect (f.operatorStep l r) f.hi f.lo ()) fun h =>
      Tiles f.lo f.hi h.items.toList ∧
        ∀ iv ∈ h.items, (l.composite.heredocs.inString iv.start).isNone = true ∧
          iv.kind = .quoteOperator :=
  Sweep.collect_intervals (fun _ u hlo hhi _ => operatorStep_ensures hf r hlo hhi u) hf.ordered
    trivial

end Frame

end LexPaint
