import LexPaint.Proofs.LiteralScans
import LexPaint.Proofs.TextTwins

set_option relaxedAutoImplicit false
set_option autoImplicit false

/-!
# Documents that begin with the same lines

What a scan finds on a line depends on the lines up to it. So two documents that begin with the same
lines have the same comment marks, the same quotes and the same heredoc openers there.

## Main definitions

* `Text.Shares`: two texts that begin with the same lines.

## Main results

* `Text.Shares.lineEnd_eq`, `Text.Shares.inQuotesOnLine_eq`, `Text.Shares.behindMarkOnLine_eq`: lines.
* `Text.Shares.openerAt_eq`, `Text.Shares.nextOpener_cases`: heredoc openers.
-/

namespace LexPaint

/-- The first `n` bytes of two texts are the same, and the last of them is a newline. -/
structure Text.Shares (t t₀ : Text) (n : Nat) : Prop where
  twin : t.Twin t₀ 0 0 n
  pos : 0 < n
  line : t.byteAt (n - 1) = some newline

namespace Text.Shares

variable {t t₀ : Text} {n i pos : Nat}

/-- Two texts share lines whichever comes first. -/
lemma symm (h : t.Shares t₀ n) : t₀.Shares t n := by
  refine ⟨h.twin.symm, h.pos, ?_⟩
  have := h.twin.bytes (n - 1) (Nat.sub_lt h.pos Nat.one_pos)
  rw [Nat.zero_add] at this
  rw [← this, h.line]

/-- Shared lines lie in the text. -/
lemma lt_size (h : t.Shares t₀ n) (hi : i < n) : i < t.size := by
  have := h.twin.le_size
  omega

/-- The bytes of shared lines are the same. -/
lemma byteAt_eq (h : t.Shares t₀ n) (hi : i < n) : t.byteAt i = t₀.byteAt i := by
  have := h.twin.bytes i hi
  rwa [Nat.zero_add] at this

/-- The bytes of shared lines are of the same sorts. -/
lemma byteIs_eq (h : t.Shares t₀ n) (hi : i < n) (p : UInt8 → Bool) :
    t.byteIs p i = t₀.byteIs p i :=
  byteIs_congr (h.byteAt_eq hi)

/-- The characters of shared lines are the same. -/
lemma charAt_eq (h : t.Shares t₀ n) (hi : i < n) : t.charAt i = t₀.charAt i := by
  have := h.twin.charAt_eq hi
  rwa [Nat.zero_add] at this

/-- Shared lines have the same boundaries. -/
lemma isBoundary_eq (h : t.Shares t₀ n) (hi : i ≤ n) : t.isBoundary i = t₀.isBoundary i := by
  have := h.twin.isBoundary_eq h.pos hi
  rwa [Nat.zero_add] at this

/-- A plain mark that starts in shared lines stands in both texts. -/
lemma hasAt_eq (h : t.Shares t₀ n) (hi : i < n) {m : Mark} (hm : m.IsPlain) :
    t.hasAt i m = t₀.hasAt i m := by
  have := h.twin.hasAt_eq hm hi
  rwa [Nat.zero_add] at this

/-- A byte of the shared lines that is no newline is followed by another one. -/
lemma succ_lt (h : t.Shares t₀ n) (hi : i < n) (hne : t.byteAt i ≠ some newline) : i + 1 < n := by
  refine Nat.lt_of_le_of_ne hi fun heq => ?_
  rw [show i = n - 1 by omega] at hne
  exact hne h.line

/-- A plain mark in the shared lines ends before their last newline. -/
lemma add_length_lt (h : t.Shares t₀ n) (hi : i < n) {m : Mark} (hm : m.IsPlain)
    (hat : t.hasAt i m = true) : i + m.length < n := by
  refine Nat.lt_of_not_le fun hle => ?_
  refine Text.byteAt_ne_newline hm hat (i := n - 1) (by omega) ?_ h.line
  omega

/-- The parts of shared lines are the same. -/
lemma between_eq (h : t.Shares t₀ n) {lo hi : Nat} (hhi : hi ≤ n) :
    t.between lo hi = t₀.between lo hi := by
  refine ext_byteAt fun i => ?_
  rw [byteAt_between, byteAt_between]
  split
  · exact h.byteAt_eq (by omega)
  · rfl

/-- The same parts can be cut out of shared lines. -/
lemma slice_eq (h : t.Shares t₀ n) {lo hi : Nat} (hle : lo ≤ hi) (hhi : hi ≤ n) :
    t.slice lo hi = t₀.slice lo hi := by
  have h1 : hi ≤ t.size := Nat.le_trans hhi (by simpa using h.twin.le_size)
  have h2 : hi ≤ t₀.size := Nat.le_trans hhi (by simpa using h.twin.le_size₀)
  unfold slice checkRange
  rw [h.isBoundary_eq hhi, h.isBoundary_eq (Nat.le_trans hle hhi), h.between_eq hhi]
  simp [h1, h2]

/-! ### Searches that end with the line -/

/-- A search for a byte that a newline ends has the same end in both texts. -/
lemma findByte_eq (h : t.Shares t₀ n) {p : UInt8 → Bool} (hp : p newline = true) (hpos : pos < n) :
    ∃ i, pos ≤ i ∧ i < n ∧ t.findByte p pos t.size = some i ∧
      t₀.findByte p pos t₀.size = some i := by
  have hline : t.byteIs p (n - 1) = true := byteIs_iff.mpr ⟨newline, h.line, hp⟩
  have hn := h.lt_size (Nat.sub_lt h.pos Nat.one_pos)
  cases hf : t.findByte p pos t.size with
  | none =>
    have := findByte_eq_none_iff.mp hf (n - 1) (by omega) hn
    rw [hline] at this
    cases this
  | some i =>
    obtain ⟨h1, h2, h3, h4⟩ := findByte_eq_some_iff.mp hf
    have hi : i < n := by
      refine Nat.lt_of_not_le fun hle => ?_
      have := h4 (n - 1) (by omega) (by omega)
      rw [hline] at this
      cases this
    refine ⟨i, h1, hi, rfl, findByte_eq_some_iff.mpr
      ⟨h1, h.symm.lt_size hi, by rwa [← h.byteIs_eq hi], fun j hj hji => ?_⟩⟩
    rw [← h.byteIs_eq (by omega)]
    exact h4 j hj hji

/-- A search for a character that a newline ends has the same end in both texts. -/
lemma findChar_eq (h : t.Shares t₀ n) {p : Char → Bool} (hp : p '\n' = true) (hpos : pos < n) :
    ∃ i, pos ≤ i ∧ i < n ∧ t.findChar p pos t.size = some i ∧
      t₀.findChar p pos t₀.size = some i := by
  have hline := charAt_newline h.line
  have hn := h.lt_size (Nat.sub_lt h.pos Nat.one_pos)
  cases hf : t.findChar p pos t.size with
  | none =>
    have := findChar_eq_none_iff.mp hf (n - 1) '\n' (by omega) hn hline
    rw [hp] at this
    cases this
  | some i =>
    obtain ⟨h1, h2, ⟨c, hc, hpc⟩, h4⟩ := findChar_eq_some_iff.mp hf
    have hi : i < n := by
      refine Nat.lt_of_not_le fun hle => ?_
      have := h4 (n - 1) '\n' (by omega) (by omega) hline
      rw [hp] at this
      cases this
    refine ⟨i, h1, hi, rfl, findChar_eq_some_iff.mpr
      ⟨h1, h.symm.lt_size hi, ⟨c, by rwa [← h.charAt_eq hi], hpc⟩, fun j d hj hji hd => ?_⟩⟩
    rw [← h.charAt_eq (by omega)] at hd
    exact h4 j d hj hji hd

/-- A run of bytes that a newline ends has the same end in both texts. -/
lemma skipBytes_eq (h : t.Shares t₀ n) {p : UInt8 → Bool} (hp : p newline = false) (hpos : pos < n) :
    t.skipBytes p pos t.size = t₀.skipBytes p pos t₀.size ∧ t.skipBytes p pos t.size < n := by
  obtain ⟨i, -, hi, h1, h2⟩ := h.findByte_eq (p := fun b => !p b) (by simp [hp]) hpos
  unfold skipBytes
  rw [h1, h2]
  exact ⟨rfl, hi⟩

/-- A run of characters that a newline ends has the same end in both texts. -/
lemma skipChars_eq (h : t.Shares t₀ n) {p : Char → Bool} (hp : p '\n' = false) (hpos : pos < n) :
    t.skipChars p pos t.size = t₀.skipChars p pos t₀.size ∧ t.skipChars p pos t.size < n := by
  obtain ⟨i, -, hi, h1, h2⟩ := h.findChar_eq (p := fun c => !p c) (by simp [hp]) hpos
  unfold skipChars
  rw [h1, h2]
  exact ⟨rfl, hi⟩

/-- Shared lines end at the same offsets. -/
lemma lineEnd_eq (h : t.Shares t₀ n) (hpos : pos < n) :
    t.lineEnd pos = t₀.lineEnd pos ∧ t.lineEnd pos < n := by
  obtain ⟨i, -, hi, h1, h2⟩ := h.findByte_eq (p := (· == newline)) (by simp) hpos
  unfold lineEnd
  rw [Nat.min_eq_left (Nat.le_of_lt (h.lt_size hpos)),
    Nat.min_eq_left (Nat.le_of_lt (h.symm.lt_size hpos)), h1, h2]
  exact ⟨rfl, hi⟩

/-- Shared lines start at the same offsets. -/
lemma lineStart_eq (h : t.Shares t₀ n) (hpos : pos < n) : t.lineStart pos = t₀.lineStart pos := by
  unfold lineStart
  rw [Nat.min_eq_left (Nat.le_of_lt (h.lt_size hpos)),
    Nat.min_eq_left (Nat.le_of_lt (h.symm.lt_size hpos))]
  induction pos with
  | zero => rfl
  | succ pos ih =>
    simp only [lineStartBefore]
    rw [h.byteIs_eq (by omega), ih (by omega)]

/-! ### Quotes and comment marks -/

/-- The toggle says the same in both texts. -/
lemma openQuote_eq (h : t.Shares t₀ n) (hpos : pos ≤ n) (i : Nat) (quote : Option UInt8) :
    t.openQuote pos i quote = t₀.openQuote pos i quote := by
  fun_induction openQuote t pos i quote with
  | case1 i hlt q hb ih =>
    rw [h.byteIs_eq (by omega)] at hb
    rw [ih]
    conv_rhs => rw [openQuote, if_pos hlt]
    simp only [hb, if_true]
  | case2 i hlt q hb hq ih =>
    rw [h.byteIs_eq (by omega)] at hb hq
    rw [ih]
    conv_rhs => rw [openQuote, if_pos hlt]
    simp only [hb, hq, if_true, Bool.false_eq_true, if_false]
  | case3 i hlt q hb hq ih =>
    rw [h.byteIs_eq (by omega)] at hb hq
    rw [ih]
    conv_rhs => rw [openQuote, if_pos hlt]
    simp only [hb, hq, Bool.false_eq_true, if_false]
  | case4 i hlt hq ih =>
    rw [h.byteIs_eq (by omega)] at hq
    rw [ih, h.byteAt_eq (by omega)]
    conv_rhs => rw [openQuote, if_pos hlt]
    simp only [hq, if_true]
  | case5 i hlt hq ih =>
    rw [h.byteIs_eq (by omega)] at hq
    rw [ih]
    conv_rhs => rw [openQuote, if_pos hlt]
    simp only [hq, Bool.false_eq_true, if_false]
  | case6 i quote hge => rw [openQuote.eq_def, if_neg hge]

/-- The same offsets are quoted on their lines. -/
lemma inQuotesOnLine_eq (h : t.Shares t₀ n) (hpos : pos < n) :
    t.inQuotesOnLine pos = t₀.inQuotesOnLine pos := by
  unfold inQuotesOnLine
  dsimp only
  rw [Nat.min_eq_left (Nat.le_of_lt (h.lt_size hpos)),
    Nat.min_eq_left (Nat.le_of_lt (h.symm.lt_size hpos)), h.lineStart_eq hpos,
    h.openQuote_eq (Nat.le_of_lt hpos)]

/-- The search for a mark finds the same in both texts. **Proof sketch.** Induction along the search,
which looks at bytes and plain marks of the shared lines. -/
lemma firstMark_eq (h : t.Shares t₀ n) (hpos : pos ≤ n) {marks : List Mark}
    (hm : ∀ m ∈ marks, m.IsPlain) {accept accept₀ : Nat → Bool}
    (haccept : ∀ i, i < n → accept i = accept₀ i) (i : Nat) (quote : Option UInt8) :
    t.firstMark marks accept pos i quote = t₀.firstMark marks accept₀ pos i quote := by
  have hany (i : Nat) (hi : i < n) : marks.any (t.hasAt i) = marks.any (t₀.hasAt i) := by
    rw [Bool.eq_iff_iff, List.any_eq_true, List.any_eq_true]
    exact exists_congr fun m => and_congr_right fun hmem => by rw [h.hasAt_eq hi (hm m hmem)]
  fun_induction firstMark t marks accept pos i quote with
  | case1 i hlt q hb ih =>
    rw [h.byteIs_eq (by omega)] at hb
    rw [ih]
    conv_rhs => rw [firstMark, if_pos hlt]
    simp only [hb, if_true]
  | case2 i hlt q hb hq ih =>
    rw [h.byteIs_eq (by omega)] at hb hq
    rw [ih]
    conv_rhs => rw [firstMark, if_pos hlt]
    simp only [hb, hq, if_true, Bool.false_eq_true, if_false]
  | case3 i hlt q hb hq ih =>
    rw [h.byteIs_eq (by omega)] at hb hq
    rw [ih]
    conv_rhs => rw [firstMark, if_pos hlt]
    simp only [hb, hq, Bool.false_eq_true, if_false]
  | case4 i hlt hq ih =>
    rw [h.byteIs_eq (by omega)] at hq
    rw [ih, h.byteAt_eq (by omega)]
    conv_rhs => rw [firstMark, if_pos hlt]
    simp only [hq, if_true]
  | case5 i hlt hq hmark =>
    rw [h.byteIs_eq (by omega)] at hq
    rw [hany i (by omega), haccept i (by omega)] at hmark
    rw [firstMark, if_pos hlt]
    simp only [hq, hmark, Bool.false_eq_true, if_false, if_true]
  | case6 i hlt hq hmark ih =>
    rw [h.byteIs_eq (by omega)] at hq
    rw [hany i (by omega), haccept i (by omega)] at hmark
    rw [ih]
    conv_rhs => rw [firstMark, if_pos hlt]
    simp only [hq, hmark, Bool.false_eq_true, if_false]
  | case7 i quote hge => rw [firstMark.eq_def, if_neg hge]

/-- The same offsets stand behind a mark on their lines. -/
lemma behindMarkOnLine_eq (h : t.Shares t₀ n) (hpos : pos < n) {marks : List Mark}
    (hm : ∀ m ∈ marks, m.IsPlain) (filter : MarkFilter) :
    t.behindMarkOnLine pos marks (filter.admits t) =
      t₀.behindMarkOnLine pos marks (filter.admits t₀) := by
  unfold behindMarkOnLine
  dsimp only
  rw [Nat.min_eq_left (Nat.le_of_lt (h.lt_size hpos)),
    Nat.min_eq_left (Nat.le_of_lt (h.symm.lt_size hpos)), h.lineStart_eq hpos]
  refine h.firstMark_eq (Nat.le_of_lt hpos) hm (fun i hi => ?_) _ _
  unfold MarkFilter.admits
  cases filter with
  | everywhere => rfl
  | notBehindDollar =>
    cases i with
    | zero => rfl
    | succ i => simp only [Nat.add_sub_cancel, h.byteIs_eq (show i < n by omega)]
  | notAttribute => rw [h.hasAt_eq hi (by decide)]

/-! ### Heredoc openers -/

/-- A tag without quotes ends at the same offset, in the shared lines. -/
lemma tagEnd_eq (h : t.Shares t₀ n) (hpos : pos < n) :
    HeredocRules.tagEnd t pos = HeredocRules.tagEnd t₀ pos ∧
      ∀ stop, HeredocRules.tagEnd t pos = some stop → stop < n := by
  unfold HeredocRules.tagEnd
  rw [h.byteIs_eq hpos]
  by_cases hstart : t₀.byteIs HeredocRules.startsTag pos = true
  · have hnext : pos + 1 < n := by
      refine h.succ_lt hpos fun hn => ?_
      rw [← h.byteIs_eq hpos] at hstart
      obtain ⟨b, hb, hs⟩ := byteIs_iff.mp hstart
      rw [hn] at hb
      rw [← Option.some.inj hb] at hs
      exact absurd hs (by decide)
    obtain ⟨heq, hlt⟩ := h.skipChars_eq (p := Unicode.isTagChar) (by decide +kernel) hnext
    rw [if_pos hstart, if_pos hstart, heq]
    refine ⟨rfl, fun stop hstop => ?_⟩
    rw [← Option.some.inj hstop, ← heq]
    exact hlt
  · rw [if_neg hstart, if_neg hstart]
    exact ⟨rfl, fun stop hstop => by cases hstop⟩

/-- Tags in the shared lines are the same. -/
lemma tagBetween_eq (h : t.Shares t₀ n) {lo hi : Nat} (hhi : hi ≤ n) :
    HeredocRules.tagBetween t lo hi = HeredocRules.tagBetween t₀ lo hi := by
  unfold HeredocRules.tagBetween
  rw [h.between_eq hhi]

/-- A tag is the same in both texts, and it ends in the shared lines. -/
lemma tagAt_eq (h : t.Shares t₀ n) (hpos : pos < n) :
    HeredocRules.tagAt t pos = HeredocRules.tagAt t₀ pos ∧
      ∀ tag, HeredocRules.tagAt t pos = some tag → tag.2 < n := by
  unfold HeredocRules.tagAt
  rw [h.byteAt_eq hpos]
  cases hq : (t₀.byteAt pos).filter isQuote with
  | none =>
    obtain ⟨heq, hlt⟩ := h.tagEnd_eq hpos
    dsimp only
    rw [heq]
    cases hend : HeredocRules.tagEnd t₀ pos with
    | none => exact ⟨rfl, fun tag htag => by cases htag⟩
    | some stop =>
      have hstop := hlt stop (heq.trans hend)
      simp only [Option.bind_eq_bind, Option.bind_some]
      rw [h.tagBetween_eq (Nat.le_of_lt hstop)]
      exact ⟨rfl, fun tag htag => by rw [← Option.some.inj htag]; exact hstop⟩
  | some quote =>
    obtain ⟨hbyte, hquote⟩ := Option.filter_eq_some_iff.mp hq
    have hnext : pos + 1 < n := by
      refine h.succ_lt hpos fun hn => ?_
      rw [h.byteAt_eq hpos, hbyte] at hn
      rw [Option.some.inj hn] at hquote
      exact absurd hquote (by decide)
    obtain ⟨heq, hlt⟩ := h.tagEnd_eq hnext
    dsimp only
    rw [heq]
    cases hend : HeredocRules.tagEnd t₀ (pos + 1) with
    | none => exact ⟨rfl, fun tag htag => by cases htag⟩
    | some stop =>
      have hstop := hlt stop (heq.trans hend)
      simp only [Option.bind_eq_bind, Option.bind_some]
      rw [h.tagBetween_eq (Nat.le_of_lt hstop), h.byteIs_eq hstop]
      refine ⟨rfl, fun tag htag => ?_⟩
      split at htag
      · rename_i hclose
        rw [← Option.some.inj htag]
        refine h.succ_lt hstop fun hn => ?_
        rw [byteIs_eq_iff, ← h.byteAt_eq hstop, hn] at hclose
        rw [← Option.some.inj hclose] at hquote
        exact absurd hquote (by decide)
      · cases htag

/-- An opener that starts in the shared lines ends there, and it is one in both texts.

**Proof sketch.** An opener is made of a plain mark, a flag, blanks and a tag, and none of them
reaches over a newline. -/
lemma openerAt_eq (h : t.Shares t₀ n) (hpos : pos < n) {r : HeredocRules} (hr : r.opener.IsPlain)
    (hflag : r.indentFlag ≠ some newline) :
    r.openerAt t pos = r.openerAt t₀ pos ∧
      ∀ o, r.openerAt t pos = some o → o.stop < n := by
  unfold HeredocRules.openerAt
  rw [h.hasAt_eq hpos hr]
  by_cases hat : t₀.hasAt pos r.opener = true
  · -- each part of the opener ends in front of the newline that the shared lines end with
    have hbehind : pos + r.opener.length < n := by
      rw [← h.hasAt_eq hpos hr] at hat
      exact h.add_length_lt hpos hr hat
    rw [if_pos hat, if_pos hat]
    dsimp only
    have hindented : (r.indentFlag.any fun flag => t.byteIs (· == flag) (pos + r.opener.length)) =
        r.indentFlag.any fun flag => t₀.byteIs (· == flag) (pos + r.opener.length) := by
      cases r.indentFlag with
      | none => rfl
      | some flag => exact h.byteIs_eq hbehind _
    rw [hindented]
    generalize hfrom : (if (r.indentFlag.any fun flag =>
        t₀.byteIs (· == flag) (pos + r.opener.length)) = true then pos + r.opener.length + 1
      else pos + r.opener.length) = behindFlag
    have hbehindFlag : behindFlag < n := by
      rw [← hfrom]
      split
      · rename_i hany
        obtain ⟨flag, hsome, hbyte⟩ := (Option.any_eq_true _ _).mp hany
        refine h.succ_lt hbehind fun hn => ?_
        rw [← h.byteIs_eq hbehind, byteIs_eq_iff, hn] at hbyte
        exact hflag (hsome.trans hbyte.symm)
      · exact hbehind
    generalize hstart : (if r.blanksBeforeTag = true then
        t₀.skipBytes (fun b => b == 0x20 || b == 0x09) behindFlag t₀.size
      else behindFlag) = tagStart
    obtain ⟨hskip, hskipped⟩ :=
      h.skipBytes_eq (p := fun b => b == 0x20 || b == 0x09) (by decide) hbehindFlag
    rw [hskip, hstart]
    have htagStart : tagStart < n := by
      rw [← hstart]
      split
      · rwa [← hskip]
      · exact hbehindFlag
    obtain ⟨htag, hstop⟩ := h.tagAt_eq htagStart
    rw [htag]
    refine ⟨rfl, fun o ho => ?_⟩
    rw [Option.bind_eq_bind, Option.bind_eq_some_iff] at ho
    obtain ⟨tag, htagAt, ho⟩ := ho
    cases ho
    exact hstop tag (htag.trans htagAt)
  · rw [if_neg hat, if_neg hat]
    exact ⟨rfl, fun o ho => by cases ho⟩

/-- The next opener is the same in both texts, unless none starts in what is left of the shared
lines.

**Proof sketch.** Strong induction on what is left of the shared lines. -/
lemma nextOpener_cases (h : t.Shares t₀ n) {r : HeredocRules} (hr : r.opener.IsPlain)
    (hflag : r.indentFlag ≠ some newline) (pos : Nat) :
    (∃ o, o.start < n ∧ o.stop < n ∧ r.nextOpener t pos = some o ∧ r.nextOpener t₀ pos = some o) ∨
      ∀ j, pos ≤ j → j < n → r.openerAt t j = none ∧ r.openerAt t₀ j = none := by
  induction hm : n - pos using Nat.strongRecOn generalizing pos with
  | _ m ih =>
    rcases Nat.lt_or_ge pos n with hpos | hpos
    · obtain ⟨heq, hstop⟩ := h.openerAt_eq hpos hr hflag
      rw [HeredocRules.nextOpener.eq_def r t, HeredocRules.nextOpener.eq_def r t₀,
        if_pos (h.lt_size hpos), if_pos (h.symm.lt_size hpos), ← heq]
      cases hat : r.openerAt t pos with
      | some o =>
        refine .inl ⟨o, ?_, hstop o hat, rfl, rfl⟩
        have := (r.openerAt_bounds hat).1
        omega
      | none =>
        rcases ih (n - (pos + 1)) (by omega) (pos + 1) rfl with hfound | hnone
        · exact .inl hfound
        · refine .inr fun j hj hjn => ?_
          rcases Nat.lt_or_eq_of_le hj with hlt | rfl
          · exact hnone j hlt hjn
          · exact ⟨hat, heq.symm.trans hat⟩
    · exact .inr fun j hj hjn => absurd hjn (by omega)

end Text.Shares

/-- A text shares its own lines. -/
lemma Text.shares_self {t : Text} {i : Nat} (ht : t.Valid) (hline : t.byteAt i = some newline) :
    t.Shares t (i + 1) := by
  have hlt := lt_size_of_byteAt hline
  refine ⟨⟨ht, ht, fun _ _ => rfl, by omega, by omega, .inl ⟨rfl, rfl⟩, .inr fun _ => ?_⟩,
    Nat.succ_pos i, hline⟩
  rw [Nat.zero_add]
  exact hline

end LexPaint
