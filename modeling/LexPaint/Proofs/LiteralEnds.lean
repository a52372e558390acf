import LexPaint.Proofs.Escapes
import LexPaint.Proofs.LiteralScans
import LexPaint.Proofs.MarkupScans

set_option relaxedAutoImplicit false
set_option autoImplicit false

/-!
# Where literals end

Every scan ends a literal behind a byte of its closing mark, at a newline, or at the end of its scope.
None of these places cuts a character, although an escape may step into the middle of one: what is
met there is never the mark that the scan looks for.

## Main definitions

* `Interval.Clean`: the interval is not empty and cuts no character.

## Main results

* `Sweep.forall_mem_collect`: what holds of everything that a step may accept holds of a harvest.
* `Sweep.tiles_of_collect`: a sweep that succeeds maps intervals side by side.
* `Frame.quotes_clean`, `Frame.lineComments_clean`, `Frame.blockComments_clean`,
  `Frame.heredocs_clean`, `Frame.operators_clean`, `Frame.tags_clean`: what the scans of a scope map
  is clean.
-/

namespace LexPaint

/-- An interval that is not empty and cuts no character of a text. -/
structure Interval.Clean (t : Text) (iv : Interval) : Prop where
  startBoundary : t.isBoundary iv.start = true
  stopBoundary : t.isBoundary iv.stop = true
  nonempty : iv.start < iv.stop

/-! ### Everything that a sweep accepts -/

namespace Sweep

variable {σ α : Type}

/-- The induction along a sweep for `Sweep.forall_mem_collect`. The invariant is about the state that
the sweep carries along. -/
lemma run_forall {step : Nat → σ → Checked (Move σ α)} {hi : Nat} {J : Nat → σ → Prop}
    {P : α → Prop}
    (hstep : ∀ pos s verdict next s', J pos s → step pos s = .ok (.go verdict next s') →
      J next s' ∧ ∀ a, verdict = .accepted a → P a)
    {pos : Nat} {s : σ} {h : Harvest α} (hJ : J pos s) (hh : ∀ a ∈ h.items, P a)
    {r : Harvest α × σ} (hr : run step hi pos s h = .ok r) : ∀ a ∈ r.1.items, P a := by
  fun_induction run step hi pos s h with
  | case1 => cases hr
  | case2 =>
    cases hr
    exact hh
  | case3 => cases hr
  | case4 pos s h verdict next s' hgo hle hlt ih =>
    obtain ⟨hJ', hP⟩ := hstep pos s verdict next s' hJ hgo
    exact ih hJ' (forall_mem_add hh hP) hr
  | case5 pos s h verdict next s' hgo hle hge =>
    cases hr
    exact forall_mem_add hh (hstep pos s verdict next s' hJ hgo).2

/-- What holds of everything that a step may accept holds of all that a sweep accepts. The steps may
rely on what they keep of the offset and the state. -/
theorem forall_mem_collect {step : Nat → σ → Checked (Move σ α)} {hi : Nat} {J : Nat → σ → Prop}
    {P : α → Prop}
    (hstep : ∀ pos s verdict next s', J pos s → step pos s = .ok (.go verdict next s') →
      J next s' ∧ ∀ a, verdict = .accepted a → P a)
    {pos : Nat} {s : σ} (hJ : J pos s) {harvest : Harvest α}
    (h : collect step hi pos s = .ok harvest) : ∀ a ∈ harvest.items, P a := by
  obtain ⟨r, hr, h⟩ := bind_eq_ok.mp h
  cases h
  exact run_forall hstep hJ forall_mem_empty hr

/-- The induction along a sweep for `Sweep.tiles_of_collect`. The invariant is that what was found so
far lies side by side in front of the offset. -/
lemma tiles_of_run {step : Nat → σ → Checked (Move σ α)} {lo hi : Nat} {g : α → List Interval}
    (hstep : ∀ pos s verdict next s', lo ≤ pos → step pos s = .ok (.go verdict next s') →
      pos ≤ next ∧ ∀ a, verdict = .accepted a → LexPaint.Tiles pos next (g a))
    {pos : Nat} {s : σ} {h : Harvest α} (hlo : lo ≤ pos) (hhi : pos ≤ hi)
    (htiles : LexPaint.Tiles lo pos (h.items.toList.flatMap g)) {r : Harvest α × σ}
    (hr : run step hi pos s h = .ok r) : LexPaint.Tiles lo hi (r.1.items.toList.flatMap g) := by
  have hadd : ∀ pos s verdict next s' h, lo ≤ pos → step pos s = .ok (.go verdict next s') →
      LexPaint.Tiles lo pos (h.items.toList.flatMap g) →
        LexPaint.Tiles lo next ((Harvest.add h verdict).items.toList.flatMap g) := by
    intro pos s verdict next s' h hlo hgo htiles
    obtain ⟨hpos, hacc⟩ := hstep pos s verdict next s' hlo hgo
    rw [Harvest.toList_add, List.flatMap_append]
    cases verdict with
    | nothing | refused => simpa [Verdict.items] using htiles.mono (Nat.le_refl _) hpos
    | accepted a =>
      simpa [Verdict.items] using htiles.append (hacc a rfl) hlo hpos
  fun_induction run step hi pos s h with
  | case1 => cases hr
  | case2 =>
    cases hr
    exact htiles.mono (Nat.le_refl _) hhi
  | case3 => cases hr
  | case4 pos s h verdict next s' hgo hle hlt ih =>
    exact ih (by omega) (by omega) (hadd pos s verdict next s' h hlo hgo htiles) hr
  | case5 pos s h verdict next s' hgo hle hge =>
    cases hr
    exact (hadd pos s verdict next s' h hlo hgo htiles).mono (Nat.le_refl _) (by omega)

/-- The rule for a sweep that is known to have succeeded. Its steps need not show that they go on in
range, because a step out of range would have ended the sweep with a fault. -/
theorem tiles_of_collect {step : Nat → σ → Checked (Move σ α)} {lo hi : Nat} {g : α → List Interval}
    (hstep : ∀ pos s verdict next s', lo ≤ pos → step pos s = .ok (.go verdict next s') →
      pos ≤ next ∧ ∀ a, verdict = .accepted a → LexPaint.Tiles pos next (g a))
    (hle : lo ≤ hi) {s : σ} {harvest : Harvest α} (h : collect step hi lo s = .ok harvest) :
    LexPaint.Tiles lo hi (harvest.items.toList.flatMap g) := by
  obtain ⟨r, hr, h⟩ := bind_eq_ok.mp h
  cases h
  exact tiles_of_run hstep (Nat.le_refl _) hle (by simpa [Harvest.empty] using Tiles.nil) hr

end Sweep

/-! ### Boundaries inside a text -/

namespace Text

variable {t : Text} {pos hi : Nat}

/-- Behind some characters lies a boundary. -/
lemma isBoundary_skipChars (p : Char → Bool) (h : t.isBoundary (max pos hi) = true) :
    t.isBoundary (t.skipChars p pos hi) = true := by
  unfold skipChars
  cases hf : t.findChar (fun c => !p c) pos hi with
  | none => exact h
  | some i =>
    obtain ⟨-, -, c, hc, -⟩ := findChar_bounds hf
    exact isBoundary_of_charAt hc

/-- Behind the bytes of a valid text that start at a boundary lies a boundary.

**Proof sketch.** What stands in front of the end is the text in front of the offset and the bytes
that were found, and both are valid. -/
lemma isBoundary_add_of_hasAt (ht : t.Valid) {u : Text} (hu : u.Valid)
    (hpos : t.isBoundary pos = true) (hat : t.hasAt pos u.bytes.data.toList = true) :
    t.isBoundary (pos + u.size) = true := by
  have hlen : u.bytes.data.toList.length = u.size := Array.length_toList
  have hle : pos + u.size ≤ t.size := by
    rcases Nat.eq_zero_or_pos u.size with h0 | h0
    · rw [h0]
      exact le_size_of_isBoundary hpos
    · rw [← hlen]
      exact le_size_of_hasAt hat (List.ne_nil_of_length_pos (by omega))
  obtain ⟨hle', hfront⟩ := (isBoundary_iff ht).mp hpos
  refine (isBoundary_iff ht).mpr ⟨hle, ?_⟩
  have hsplit : t.between 0 (pos + u.size) = t.between 0 pos ++ u := by
    refine ext_byteAt fun i => ?_
    rw [byteAt_append, byteAt_between, byteAt_between, size_between t 0 hle']
    simp only [Nat.zero_add, Nat.sub_zero]
    by_cases h1 : i < pos
    · rw [if_pos (by omega), if_pos h1, if_pos h1]
    · by_cases h2 : i < pos + u.size
      · have := hasAt_iff.mp hat (i - pos) (by omega)
        rw [show pos + (i - pos) = i by omega] at this
        rw [if_pos h2, if_neg h1, this, byteAt_eq_getElem (show i - pos < u.size by omega)]
        rfl
      · rw [if_neg h2, if_neg h1]
        exact (byteAt_eq_none_iff.mpr (by omega)).symm
  have hvalid : (t.between 0 (pos + u.size)).Valid := by
    rw [hsplit]
    exact valid_append hfront hu
  exact hvalid

end Text

/-! ### Tags and lines of heredocs -/

namespace HeredocRules

variable {t : Text} {pos : Nat}

/-- A tag starts with an ASCII byte. -/
lemma startsTag_ascii {b : UInt8} (h : startsTag b = true) : b < 0x80 := by
  have hall : ∀ n : Fin 256, startsTag (UInt8.ofFin n) = true → UInt8.ofFin n < 0x80 := by
    decide +kernel
  simpa using hall b.toFin (by simpa using h)

/-- A tag without quotes lies between two boundaries. -/
lemma isBoundary_tagEnd {stop : Nat} (h : tagEnd t pos = some stop) :
    t.isBoundary pos = true ∧ t.isBoundary stop = true := by
  unfold tagEnd at h
  split at h
  · rename_i hstart
    obtain ⟨b, hb, htag⟩ := Text.byteIs_iff.mp hstart
    have hlt := Text.lt_size_of_byteAt hb
    obtain rfl := Option.some.inj h
    refine ⟨Text.isBoundary_of_ascii hb (startsTag_ascii htag), Text.isBoundary_skipChars _ ?_⟩
    rw [Nat.max_eq_right (by omega)]
    exact t.isBoundary_size
  · cases h

/-- A tag is made of whole characters, and so is what stands around it.

**Proof sketch.** A tag lies between two boundaries, so its bytes are a valid text. The quotes around
it are single bytes. -/
lemma tagAt_clean (ht : t.Valid) {tag : Mark} {stop : Nat} (h : tagAt t pos = some (tag, stop)) :
    t.isBoundary stop = true ∧ ∃ u : Text, u.Valid ∧ u.bytes.data.toList = tag := by
  unfold tagAt at h
  split at h
  · rename_i quote hquote
    rw [Option.bind_eq_bind, Option.bind_eq_some_iff] at h
    obtain ⟨last, hlast, h⟩ := h
    split at h
    · rename_i hclose
      obtain ⟨hstart, hstop⟩ := isBoundary_tagEnd hlast
      have hquote' : isQuote quote = true := (Option.filter_eq_some_iff.mp hquote).2
      obtain ⟨rfl, rfl⟩ : tagBetween t (pos + 1) last = tag ∧ last + 1 = stop := by simpa using h
      exact ⟨Text.isBoundary_succ_of_ascii ht (Text.byteIs_eq_iff.mp hclose) (Frame.isQuote_ascii hquote'),
        _, Text.valid_between ht hstart hstop (Nat.le_of_lt (tagEnd_bounds hlast).1), rfl⟩
    · cases h
  · rw [Option.bind_eq_bind, Option.bind_eq_some_iff] at h
    obtain ⟨last, hlast, h⟩ := h
    obtain ⟨hstart, hstop⟩ := isBoundary_tagEnd hlast
    obtain ⟨rfl, rfl⟩ : tagBetween t pos last = tag ∧ last = stop := by simpa using h
    exact ⟨hstop, _, Text.valid_between ht hstart hstop (Nat.le_of_lt (tagEnd_bounds hlast).1), rfl⟩

/-- An opener ends at a boundary, and its tag is made of whole characters. -/
lemma openerAt_clean (r : HeredocRules) (ht : t.Valid) {opener : HeredocOpener}
    (h : r.openerAt t pos = some opener) :
    t.isBoundary opener.stop = true ∧ ∃ u : Text, u.Valid ∧ u.bytes.data.toList = opener.tag := by
  unfold openerAt at h
  split at h
  · dsimp only at h
    rw [Option.bind_eq_bind, Option.bind_eq_some_iff] at h
    obtain ⟨⟨tag, stop⟩, htag, h⟩ := h
    obtain rfl := Option.some.inj h
    exact tagAt_clean ht htag
  · cases h

/-- A line closes a heredoc between two of its characters.

**Proof sketch.** A carriage return at the end is a single byte, and the indentation is made of whole
characters. So the tag is looked for at a boundary, and it is a valid text. -/
lemma isBoundary_terminatorEnd (r : HeredocRules) {line : Text} (hline : line.Valid) {u : Text}
    (hu : u.Valid) {indented : Bool} {offset : Nat}
    (h : r.terminatorEnd line u.bytes.data.toList indented = some offset) :
    line.isBoundary offset = true := by
  have hlen : u.bytes.data.toList.length = u.size := Array.length_toList
  unfold terminatorEnd at h
  dsimp only at h
  generalize hstop :
    (if line.byteIs (· == 0x0D) (line.size - 1) then line.size - 1 else line.size) = stop at h
  have hb : line.isBoundary stop = true := by
    subst hstop
    split
    · rename_i hcr
      exact Text.isBoundary_of_ascii (Text.byteIs_eq_iff.mp hcr) (by decide)
    · exact line.isBoundary_size
  split at h
  · generalize (if indented then line.skipBlanks 0 stop else 0) = start at h
    split at h
    · obtain rfl := Option.some.inj h
      exact hb
    · cases h
  · split at h
    · rename_i hc
      rw [Bool.and_eq_true] at hc
      split at h
      · cases h
      · obtain rfl := Option.some.inj h
        rw [hlen]
        refine Text.isBoundary_add_of_hasAt hline hu (Text.isBoundary_skipChars _ ?_) hc.2
        rwa [Nat.max_eq_right (Nat.zero_le _)]
    · cases h

end HeredocRules

/-! ### Parts of quote operators -/

namespace QuoteOperatorRules

variable {t : Text} {hi : Nat}

/-- Delimiters are ASCII bytes. -/
lemma isDelimiter_ascii {b : UInt8} (h : isDelimiter b = true) : b < 0x80 := by
  have hall : ∀ n : Fin 256, isDelimiter (UInt8.ofFin n) = true → UInt8.ofFin n < 0x80 := by
    decide +kernel
  simpa using hall b.toFin (by simpa using h)

/-- An ASCII byte is closed by an ASCII byte. -/
lemma closerOf_ascii {b : UInt8} (h : b < 0x80) : closerOf b < 0x80 := by
  unfold closerOf
  repeat' split
  all_goals first | decide | exact h

/-- A part ends with the range or behind its closer. -/
lemma closeFrom_stop (opener closer : UInt8) (depth i hi : Nat) :
    closeFrom t opener closer depth i hi = hi ∨
      t.byteAt (closeFrom t opener closer depth i hi - 1) = some closer := by
  fun_induction closeFrom t opener closer depth i hi with
  | case1 depth i hlt hb ih => exact ih
  | case2 depth i hlt hb ho ih => exact ih
  | case3 i hlt hb ho hc => exact .inr (Text.byteIs_eq_iff.mp hc)
  | case4 i hlt hb ho hc d ih => exact ih
  | case5 depth i hlt hb ho hc ih => exact ih
  | case6 => exact .inl rfl

/-- A part ends with the range or behind the byte that closes its opener. -/
lemma delimitedEnd_stop {start stop : Nat} (h : delimitedEnd t start hi = .ok stop) :
    ∃ opener, t.byteAt start = some opener ∧
      (stop = hi ∨ t.byteAt (stop - 1) = some (closerOf opener)) := by
  unfold delimitedEnd at h
  split at h
  · rename_i opener hopener
    cases h
    exact ⟨opener, hopener, closeFrom_stop ..⟩
  · cases h

/-- A delimiter is an ASCII byte. -/
lemma byteAt_delimiterAt {pos start : Nat} (h : delimiterAt t pos hi = some start) :
    ∃ b, t.byteAt start = some b ∧ b < 0x80 := by
  unfold delimiterAt at h
  dsimp only at h
  split at h
  · rename_i hc
    obtain rfl := Option.some.inj h
    obtain ⟨b, hb, hd⟩ := Text.byteIs_iff.mp (Bool.and_eq_true _ _ ▸ hc).2
    exact ⟨b, hb, isDelimiter_ascii hd⟩
  · cases h

/-- A part that an ASCII delimiter opens ends at a boundary.

**Proof sketch.** A part ends with the range or behind an ASCII byte. -/
lemma isBoundary_delimitedEnd (ht : t.Valid) (hhi : t.isBoundary hi = true) {start stop : Nat}
    {opener : UInt8} (hopener : t.byteAt start = some opener) (hascii : opener < 0x80)
    (h : delimitedEnd t start hi = .ok stop) : t.isBoundary stop = true := by
  have hlt := Text.lt_size_of_byteAt hopener
  obtain ⟨opener', ho, hstop⟩ := delimitedEnd_stop h
  obtain rfl := Option.some.inj (hopener.symm.trans ho)
  rcases hstop with rfl | hstop
  · exact hhi
  · have hb := Text.isBoundary_succ_of_ascii ht hstop (closerOf_ascii hascii)
    rcases Nat.eq_zero_or_pos stop with rfl | hpos
    · exact t.isBoundary_zero
    · rwa [Nat.sub_add_cancel hpos] at hb

/-- A quote operator ends at a boundary. The second part of one without brackets is opened by the
delimiter that closes the first, which stands directly before its end.

**Proof sketch.** By cases on the parts of the operator. Each part is opened by an ASCII byte: the
delimiter in front, a delimiter that was looked for, or the closer of the first part. -/
lemma isBoundary_operatorEnd (r : QuoteOperatorRules) (ht : t.Valid) (hhi : t.isBoundary hi = true)
    {operator : Mark} {start stop : Nat} {opener : UInt8} (hopener : t.byteAt start = some opener)
    (hascii : opener < 0x80) (h : r.operatorEnd t operator start hi = .ok stop) :
    t.isBoundary stop = true := by
  unfold operatorEnd at h
  obtain ⟨first, hfirst, h⟩ := bind_eq_ok.mp h
  have hb := isBoundary_delimitedEnd ht hhi hopener hascii hfirst
  split at h
  · rename_i hc
    rw [Bool.and_eq_true, decide_eq_true_eq] at hc
    split at h
    · split at h
      · rename_i second hsecond
        obtain ⟨b, hbyte, hb⟩ := byteAt_delimiterAt hsecond
        exact isBoundary_delimitedEnd ht hhi hbyte hb h
      · cases h
        exact hb
    · obtain ⟨middle, hmiddle, h⟩ := bind_eq_ok.mp h
      rw [minus_eq_ok_iff] at hmiddle
      obtain ⟨opener', ho, hstop⟩ := delimitedEnd_stop hfirst
      obtain rfl := Option.some.inj (hopener.symm.trans ho)
      rcases hstop with hstop | hstop
      · omega
      · rw [hmiddle, Nat.add_sub_cancel] at hstop
        exact isBoundary_delimitedEnd ht hhi hstop (closerOf_ascii hascii) h
  · cases h
    exact hb

end QuoteOperatorRules

namespace Frame

variable {f : Frame} {l : Layout} {pos : Nat}

/-! ### Strings and comments -/

/-- Three quotes in a row are a plain mark. -/
lemma isPlain_triple {quote : UInt8} (h : isQuote quote = true) :
    Mark.IsPlain (CommentRules.triple quote) := by
  have h' : quote = doubleQuote ∨ quote = singleQuote := by simpa [isQuote] using h
  rcases h' with rfl | rfl <;> decide

/-- A text block ends at a boundary. -/
lemma isBoundary_textBlockEnd (hf : f.WellFormed) {quote : UInt8} (hq : isQuote quote = true) :
    f.text.isBoundary (f.textBlockEnd quote pos) = true := by
  unfold textBlockEnd
  split
  · rename_i i hi
    obtain ⟨-, -, hat, -⟩ := Text.findUnescaped_bounds hi
    exact Text.isBoundary_add_length hf.valid (isPlain_triple hq) hat
  · exact hf.hiBoundary

/-- A string ends at a boundary. -/
lemma isBoundary_quoteEnd (hf : f.WellFormed) (singleLine : Bool) {quote : UInt8}
    (hq : isQuote quote = true) : f.text.isBoundary (f.quoteEnd singleLine quote pos) = true := by
  unfold quoteEnd
  split
  · rename_i i hi
    obtain ⟨-, -, hc⟩ := Text.findClosing_found_bounds hi
    exact Text.isBoundary_succ_of_ascii hf.valid (Text.byteIs_eq_iff.mp hc) (isQuote_ascii hq)
  · rename_i i hi
    exact Text.isBoundary_of_byteAt_newline (Text.findClosing_lineEnd_bounds hi).2.2
  · exact hf.hiBoundary

/-- The string that a quote opens is not empty and cuts no character. -/
lemma stringAt_clean (hf : f.WellFormed) {condition : Condition} {singleLine : Bool} {quote : UInt8}
    (hbyte : f.text.byteAt pos = some quote) (hq : isQuote quote = true) (hlo : f.lo ≤ pos)
    (hhi : pos < f.hi) {iv : Interval} (h : f.stringAt condition singleLine quote pos = .ok iv) :
    iv.Clean f.text := by
  have hb := Text.isBoundary_of_ascii hbyte (isQuote_ascii hq)
  obtain ⟨rfl, hne, -, -⟩ := (stringAt_ensures hf condition singleLine quote hlo hhi hb).elim h
  refine ⟨hb, ?_, hne⟩
  obtain ⟨opens, -, h⟩ := bind_eq_ok.mp h
  split at h
  · rw [← Except.ok.inj h]
    exact isBoundary_textBlockEnd hf hq
  · rw [← Except.ok.inj h]
    exact isBoundary_quoteEnd hf singleLine hq

/-- A quote that is not refused is not escaped.

**Proof sketch.** The test for escapes comes first. -/
lemma escaped_of_refusesQuote {cursor cursor' : Option CommentCursor}
    (h : f.refusesQuote l pos cursor = .ok (false, cursor')) : f.text.escaped pos = false := by
  obtain ⟨escaped, hescaped, h⟩ := bind_eq_ok.mp h
  obtain ⟨_, -, hescaped⟩ := bind_eq_ok.mp hescaped
  obtain rfl := Except.ok.inj hescaped
  cases hesc : f.text.escaped pos with
  | false => rfl
  | true =>
    rw [hesc] at h
    cases h

/-- Every string of a scope is what its quote opens, and that quote is not escaped.

**Proof sketch.** By what a single step accepts: a quote that is not refused. -/
theorem quotes_stringAt {condition : Condition} {singleLine : Bool}
    {harvest : Sweep.Harvest Interval}
    (h : Sweep.collect (f.quoteStep l condition singleLine) f.hi f.lo f.cursor = .ok harvest) :
    ∀ iv ∈ harvest.items, f.lo ≤ iv.start ∧ iv.start < f.hi ∧
      ∃ quote, f.text.Bare [quote] iv.start ∧ isQuote quote = true ∧
        f.stringAt condition singleLine quote iv.start = .ok iv := by
  refine Sweep.forall_mem_collect (J := fun pos _ => f.lo ≤ pos) ?_ (Nat.le_refl _) h
  intro pos cursor verdict next cursor' hlo hgo
  obtain ⟨_, -, hgo⟩ := bind_eq_ok.mp hgo
  split at hgo
  · cases hgo
  · rename_i start hstart
    obtain ⟨h1, h2, hquote⟩ := Text.findByte_bounds hstart
    obtain ⟨quote, hbyte, hq⟩ := Text.byteIs_iff.mp hquote
    obtain ⟨⟨refused, cursor₁⟩, hrefused, hgo⟩ := bind_eq_ok.mp hgo
    dsimp only at hgo
    cases refused with
    | true =>
      cases hgo
      exact ⟨by omega, by simp⟩
    | false =>
      obtain ⟨iv, hiv, hgo⟩ := bind_eq_ok.mp hgo
      rw [hbyte, Option.getD_some] at hiv
      cases hgo
      refine ⟨by omega, fun a ha => ?_⟩
      cases ha
      -- a string starts at its quote, whether it is a text block or not
      have hstart : iv.start = start := by
        obtain ⟨block, -, hiv⟩ := bind_eq_ok.mp hiv
        cases block <;> cases hiv <;> rfl
      rw [hstart]
      exact ⟨by omega, h2, quote, Text.bare_byte_iff.mpr ⟨hbyte, escaped_of_refusesQuote hrefused⟩, hq,
        hiv⟩

/-- A string cuts no character. -/
theorem quotes_clean (hf : f.WellFormed) {condition : Condition} {singleLine : Bool}
    {harvest : Sweep.Harvest Interval}
    (h : Sweep.collect (f.quoteStep l condition singleLine) f.hi f.lo f.cursor = .ok harvest) :
    ∀ iv ∈ harvest.items, iv.Clean f.text := by
  intro iv hiv
  obtain ⟨hlo, hhi, quote, hbare, hq, hstring⟩ := quotes_stringAt h iv hiv
  exact stringAt_clean hf hbare.byteAt hq hlo hhi hstring

/-- A line comment cuts no character, and it ends before the newline of its line.

**Proof sketch.** By what a single step accepts. The state of the sweep is a finder, which stays
sound, so a comment starts with a mark, and it ends with its line. -/
theorem lineComments_clean (hf : f.WellFormed) {condition : Condition} {marks : List Mark}
    (hm : ∀ m ∈ marks, m.IsPlain) {harvest : Sweep.Harvest Interval}
    (h : Sweep.collect (f.lineCommentStep l condition) f.hi f.lo (f.cursor, .new marks) =
      .ok harvest) :
    ∀ iv ∈ harvest.items, iv.Clean f.text ∧
      ∀ i, iv.start ≤ i → i < iv.stop → f.text.byteAt i ≠ some newline := by
  have hle := hf.hi_le
  refine Sweep.forall_mem_collect (J := fun _ state => state.2.Sound f.text f.hi) ?_
    (MarkFinder.sound_new hm) h
  intro pos state verdict next state' hfinder hgo
  obtain ⟨hsound, hhit⟩ := hfinder.find pos
  unfold lineCommentStep at hgo
  dsimp only at hgo
  split at hgo
  · cases hgo
  · rename_i start length hfound
    obtain ⟨m, hplain, rfl, hpos, hat, hend⟩ := hhit start length hfound
    obtain ⟨refused, -, hgo⟩ := bind_eq_ok.mp hgo
    split at hgo
    · cases hgo
      exact ⟨hsound, by simp⟩
    · cases hgo
      refine ⟨hsound, fun a ha => ?_⟩
      cases ha
      have hb := Text.isBoundary_of_hasAt hplain hat
      have hlen : 0 < m.length := List.length_pos_iff.mpr hplain.1
      -- the mark itself stands on the line
      have hline : start < f.text.lineEnd start := by
        rcases Nat.lt_or_ge start (f.text.lineEnd start) with hlt | hge
        · exact hlt
        · have heq : f.text.lineEnd start = start :=
            Nat.le_antisymm hge (Text.le_lineEnd (by omega))
          rcases Text.endsLine_lineEnd f.text start with hs | hs
          · omega
          · rw [heq] at hs
            exact absurd hs (Text.byteAt_ne_newline hplain hat (Nat.le_refl _) (by omega))
      have hlt : start < min (f.text.lineEnd start) f.hi := by omega
      refine ⟨⟨hb, Text.isBoundary_min (Text.endsLine_lineEnd _ _).isBoundary hf.hiBoundary, hlt⟩,
        fun i h1 h2 => ?_⟩
      exact Text.byteAt_ne_newline_of_lt_lineEnd h1 (Nat.lt_of_lt_of_le h2 (Nat.min_le_left _ _))

/-- A block comment cuts no character.

**Proof sketch.** By what a single step accepts. A comment starts with its opener and ends behind its
closer or with the scope. -/
theorem blockComments_clean (hf : f.WellFormed) {condition : Condition} {opener closer : Mark}
    (hopener : opener.IsPlain) (hcloser : closer.IsPlain) {ignoreQuoted : Bool}
    {blocks : IntervalSet} {harvest : Sweep.Harvest Interval}
    (h : Sweep.collect (f.blockCommentStep l condition opener closer ignoreQuoted) f.hi f.lo blocks =
      .ok harvest) :
    ∀ iv ∈ harvest.items, iv.Clean f.text := by
  refine Sweep.forall_mem_collect (J := fun _ _ => True) ?_ trivial h
  intro pos blocks verdict next blocks' _ hgo
  obtain ⟨_, -, hgo⟩ := bind_eq_ok.mp hgo
  split at hgo
  · cases hgo
  · rename_i start hstart
    obtain ⟨-, h2, hat⟩ := Text.find_bounds hstart
    have hlen : 0 < opener.length := List.length_pos_iff.mpr hopener.1
    dsimp only at hgo
    obtain ⟨refused, -, hgo⟩ := bind_eq_ok.mp hgo
    split at hgo
    · cases hgo
      exact ⟨trivial, by simp⟩
    · obtain ⟨_, -, hgo⟩ := bind_eq_ok.mp hgo
      cases hgo
      refine ⟨trivial, fun a ha => ?_⟩
      cases ha
      obtain ⟨h3, -, hstop⟩ := blockEnd_bounds hf hcloser h2
      refine ⟨Text.isBoundary_of_hasAt hopener hat, hstop, ?_⟩
      show start < f.blockEnd closer (start + opener.length)
      omega

/-! ### Heredocs -/

/-- The body of a heredoc ends between two characters.

**Proof sketch.** Induction on what is left of the scope, as for the bounds of the body. A line that
closes the heredoc does so at a boundary of the line, and lines start and end at boundaries. -/
lemma isBoundary_bodyEnd (hf : f.WellFormed) (r : HeredocRules) {opener : HeredocOpener} {u : Text}
    (hu : u.Valid) (htag : u.bytes.data.toList = opener.tag) {line : Nat}
    (hline : f.text.isBoundary line = true ∨ f.hi < line) {stop : Nat}
    (h : f.bodyEnd r opener line = .ok stop) : f.text.isBoundary stop = true := by
  induction hn : f.hi - line using Nat.strongRecOn generalizing line with
  | _ n ih =>
    rw [bodyEnd] at h
    split at h
    · rename_i hlt
      have hb : f.text.isBoundary line = true := hline.resolve_right (by omega)
      have hle := hf.hi_le
      have hend : line ≤ f.text.lineEnd line := Text.le_lineEnd (by omega)
      dsimp only at h
      have hstop : f.text.isBoundary (min (f.text.lineEnd line) f.hi) = true :=
        Text.isBoundary_min (Text.endsLine_lineEnd _ _).isBoundary hf.hiBoundary
      obtain ⟨part, hpart, h⟩ := bind_eq_ok.mp h
      rw [Text.slice_eq_ok (by omega) hb hstop] at hpart
      cases hpart
      have hsize := Text.size_between f.text line (Text.le_size_of_isBoundary hstop)
      split at h
      · rename_i offset hoffset
        cases h
        have hle' := r.terminatorEnd_le hoffset
        rw [← htag] at hoffset
        have := r.isBoundary_terminatorEnd (Text.valid_between hf.valid hb hstop (by omega)) hu
          hoffset
        rwa [Text.isBoundary_between hb hstop (by omega)] at this
      · -- the next line starts behind a newline, or the scope ends with this one
        refine ih _ (by omega) ?_ h rfl
        rcases Nat.lt_or_ge (f.text.lineEnd line) f.hi with hlt' | hge
        · left
          rcases Text.endsLine_lineEnd f.text line with hs | hnl
          · omega
          · rw [Nat.min_eq_left (by omega), Nat.max_eq_left (by omega)]
            exact Text.isBoundary_succ_of_ascii hf.valid hnl (by decide)
        · right
          omega
    · cases h
      exact hf.hiBoundary

/-- The opener of a heredoc is clean, and so is its body unless it is empty.

**Proof sketch.** By what a single step accepts. The offsets of the sweep are offsets in the scope,
and a boundary of the scope is one of the text. The body starts behind a newline. -/
theorem heredocs_clean (hf : f.WellFormed) {r : HeredocRules} (hr : r.opener.IsPlain)
    {harvest : Sweep.Harvest (Interval × Interval)}
    (h : Sweep.collect (f.heredocStep r) f.scope.size 0 f.cursor = .ok harvest) :
    ∀ found ∈ harvest.items, found.1.Clean f.text ∧ (found.2.isEmpty = false → found.2.Clean f.text) := by
  have hsize := hf.size_scope
  have hord := hf.ordered
  -- openers are looked for in the text of the scope
  have hscope : f.scope.Valid := by
    rw [hf.scope_eq]
    exact Text.valid_between hf.valid hf.loBoundary hf.hiBoundary hord
  refine Sweep.forall_mem_collect (J := fun _ _ => True) ?_ trivial h
  intro pos cursor verdict next cursor' _ hgo
  unfold heredocStep at hgo
  split at hgo
  · cases hgo
  · rename_i opener hopener
    obtain ⟨h1, h2, h3, hat⟩ := r.nextOpener_bounds hopener
    obtain ⟨hstop, u, hu, htag⟩ := r.openerAt_clean hscope (r.openerAt_of_nextOpener hopener)
    dsimp only at hgo
    obtain ⟨refused, -, hgo⟩ := bind_eq_ok.mp hgo
    split at hgo
    · cases hgo
      exact ⟨trivial, by simp⟩
    · obtain ⟨bodyStop, hbody, hgo⟩ := bind_eq_ok.mp hgo
      obtain ⟨_, -, hgo⟩ := bind_eq_ok.mp hgo
      cases hgo
      refine ⟨trivial, fun found hfound => ?_⟩
      cases hfound
      have hbodyStart :=
        Text.isBoundary_min_lineEnd_succ (f.lo + opener.stop) hf.valid hf.hiBoundary
      refine ⟨⟨?_, ?_, Nat.add_lt_add_left h2 _⟩, fun hne => ⟨hbodyStart, ?_, ?_⟩⟩
      · rw [← hf.isBoundary_scope (by omega)]
        exact Text.isBoundary_of_hasAt hr hat
      · rwa [← hf.isBoundary_scope (by omega)]
      · exact isBoundary_bodyEnd hf r hu htag (.inl hbodyStart) hbody
      · exact Nat.lt_of_not_le (of_decide_eq_false hne)

/-! ### Quote operators -/

/-- A candidate for a quote operator is delimited by an ASCII byte. -/
lemma operatorCandidate_delimiter {r : QuoteOperatorRules} {operator : Mark} {delimiter : Nat}
    (h : f.operatorCandidate r pos = some (operator, delimiter)) :
    ∃ b, f.text.byteAt delimiter = some b ∧ b < 0x80 :=
  QuoteOperatorRules.byteAt_delimiterAt (operatorCandidate_eq_some h).2.2

/-- Each quote operator that a sweep accepts starts with a candidate and ends where the operator does.

**Proof sketch.** By what a single step accepts. -/
lemma operators_found {r : QuoteOperatorRules} {harvest : Sweep.Harvest Interval}
    (h : Sweep.collect (f.operatorStep l r) f.hi f.lo () = .ok harvest) :
    ∀ iv ∈ harvest.items, iv.kind = .quoteOperator ∧ ∃ operator delimiter,
      f.operatorCandidate r iv.start = some (operator, delimiter) ∧
        r.operatorEnd f.text operator delimiter f.hi = .ok iv.stop := by
  refine Sweep.forall_mem_collect (J := fun _ _ => True) ?_ trivial h
  intro pos u verdict next u' _ hgo
  unfold operatorStep at hgo
  split at hgo
  · cases hgo
  · obtain ⟨_, -, hgo⟩ := bind_eq_ok.mp hgo
    split at hgo
    · cases hgo
      exact ⟨trivial, by simp⟩
    · rename_i operator delimiter hfound
      dsimp only at hgo
      obtain ⟨refused, -, hgo⟩ := bind_eq_ok.mp hgo
      split at hgo
      · cases hgo
        exact ⟨trivial, by simp⟩
      · obtain ⟨stop, hstop, hgo⟩ := bind_eq_ok.mp hgo
        cases hgo
        refine ⟨trivial, fun iv hiv => ?_⟩
        cases hiv
        exact ⟨rfl, operator, delimiter, hfound, hstop⟩

/-- A quote operator cuts no character. -/
theorem operators_clean (hf : f.WellFormed) {r : QuoteOperatorRules}
    {harvest : Sweep.Harvest Interval}
    (h : Sweep.collect (f.operatorStep l r) f.hi f.lo () = .ok harvest) :
    ∀ iv ∈ harvest.items, iv.Clean f.text := by
  intro iv hiv
  obtain ⟨-, operator, delimiter, hfound, hstop⟩ := operators_found h iv hiv
  obtain ⟨hb, h1, h2⟩ := operatorCandidate_bounds hfound
  obtain ⟨b, hbyte, hascii⟩ := operatorCandidate_delimiter hfound
  have hends := (r.operatorEnd_ensures operator h2 hf.hi_le).elim hstop
  have hlt : iv.start < iv.stop := by omega
  exact ⟨hb, r.isBoundary_operatorEnd hf.valid hf.hiBoundary hbyte hascii hstop, hlt⟩

/-! ### Tags -/

/-- A tag ends between two characters, and so do its values.

**Proof sketch.** Induction along the tag. Angle brackets and quotes are single bytes, and a value
ends in front of a quote or with the range. -/
lemma tagBody_clean {t : Text} (ht : t.Valid) (embedded : IntervalSet) (i : Nat) {hi : Nat}
    (hhi : t.isBoundary hi = true) :
    t.isBoundary (tagBody t embedded i hi).2 = true ∧
      ∀ value ∈ (tagBody t embedded i hi).1,
        Interval.Clean t ⟨value.1, value.2, .attributeValue⟩ := by
  fun_induction tagBody t embedded i hi with
  | case1 i hlt hgt =>
    exact ⟨Text.isBoundary_succ_of_ascii ht (Text.byteIs_eq_iff.mp hgt) (by decide), by simp⟩
  | case2 i hlt hgt hopen iv hiv ih => exact ih
  | case3 i hlt hgt hopen hnone =>
    exact ⟨Text.isBoundary_of_ascii (Text.byteIs_eq_iff.mp hopen) (by decide), by simp⟩
  | case4 i hlt hgt hopen quote hq close values stop hrest ih =>
    rw [hrest] at ih
    refine ⟨ih.1, fun value hvalue => ?_⟩
    obtain ⟨hbyte, hquote⟩ := Option.filter_eq_some_iff.mp hq
    rcases List.mem_cons.mp hvalue with rfl | hvalue
    · -- the value begins with its quote and ends with another one, or with the range
      refine ⟨Text.isBoundary_of_ascii hbyte (isQuote_ascii hquote), ?_, ?_⟩
      · cases hf : t.findByte (· == quote) (i + 1) hi with
        | none => simpa only [close, hf] using hhi
        | some j =>
          obtain ⟨-, -, hj⟩ := Text.findByte_bounds hf
          simpa only [close, hf] using
            Text.isBoundary_succ_of_ascii ht (Text.byteIs_eq_iff.mp hj) (isQuote_ascii hquote)
      · cases hf : t.findByte (· == quote) (i + 1) hi with
        | none => simpa only [close, hf] using hlt
        | some j =>
          have := Text.findByte_bounds hf
          simp only [close, hf]
          show i < j + 1
          omega
    · exact ih.2 value hvalue
  | case5 i hlt hgt hopen hq ih => exact ih
  | case6 i hge => exact ⟨hhi, by simp⟩

/-- A tag lies in its scope and cuts no character, and neither do its values.

**Proof sketch.** By what a single step accepts. The invariant of the sweep is that it does not leave
the scope to the left. -/
theorem tags_clean (hf : f.WellFormed) {harvest : Sweep.Harvest TagFind}
    (h : Sweep.collect (f.tagStep l) f.hi f.lo () = .ok harvest) :
    ∀ tag ∈ harvest.items, f.TagFits tag ∧ Interval.Clean f.text ⟨tag.start, tag.stop, .tag⟩ ∧
      ∀ value ∈ tag.values, Interval.Clean f.text ⟨value.1, value.2, .attributeValue⟩ := by
  refine Sweep.forall_mem_collect (J := fun pos _ => f.lo ≤ pos) ?_ (Nat.le_refl _) h
  intro pos u verdict next u' hlo hgo
  obtain ⟨_, -, hgo⟩ := bind_eq_ok.mp hgo
  split at hgo
  · cases hgo
  · rename_i start hstart
    obtain ⟨h1, h2, hopen⟩ := Text.findByte_bounds hstart
    split at hgo
    · cases hgo
      exact ⟨by omega, by simp⟩
    · split at hgo
      · cases hgo
        refine ⟨by omega, fun a ha => ?_⟩
        cases ha
        obtain ⟨hstop, hvalues⟩ := tagBody_clean hf.valid l.embedded
          (f.tagAt l start).nameStop hf.hiBoundary
        have hfits := tagAt_fits (l := l) (by omega : f.lo ≤ start) h2
        exact ⟨hfits, ⟨Text.isBoundary_of_ascii (Text.byteIs_eq_iff.mp hopen) (by decide), hstop,
          hfits.start_lt⟩, hvalues⟩
      · cases hgo
        exact ⟨by omega, by simp⟩

end Frame

end LexPaint
