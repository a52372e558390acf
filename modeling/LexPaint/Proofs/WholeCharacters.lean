import LexPaint.Proofs.EditedTexts
import LexPaint.Proofs.PassFrame
import LexPaint.Proofs.RequestSteps
import LexPaint.Proofs.SectionView
import LexPaint.Proofs.TokenEnds

set_option relaxedAutoImplicit false
set_option autoImplicit false

/-!
# Styles of whole characters

A character has one style, although styles are kept for bytes and most scans step from byte to byte.
Everything that a pass paints is a whole range, and what it cuts off such a range, the part outside of
its section or inside of an embedded section, ends between characters as well. Edits stand between
characters too, so the styles that they move stay with whole characters.

## Main definitions

* `Buffer.Whole`: each byte that continues a character has the style of the byte before it.
* `Pass.Whole`: this holds of the canvas, and the embedded sections are whole ranges.

## Main results

* `Primitive.runAll_whole`: painting keeps characters whole, along the program of a pass.
* `Buffer.Edited.whole`: so do edits.
* `Session.Steps.whole`: so does every request that does not set styles itself.
-/

namespace LexPaint

/-- The buffer holds the text, and each byte that continues a character has the style of the byte
before it. -/
structure Buffer.Whole (t : Text) (c : Buffer) : Prop where
  text : c.text = t
  styles : ∀ i, t.byteIs Text.isContinuation (i + 1) = true → c.styles[i + 1]? = c.styles[i]?

/-- A byte that continues a character does not stand on a boundary. -/
lemma Text.ne_of_isContinuation {t : Text} (ht : t.Valid) {pos i : Nat}
    (hpos : t.isBoundary pos = true) (hi : t.byteIs isContinuation i = true) : i ≠ pos := by
  rintro rfl
  rw [((isBoundary_iff_byteIs ht).mp hpos).2] at hi
  cases hi

namespace Buffer

variable {t : Text} {b b₀ c : Buffer}

/-- All bytes of a character have the style of its first byte.

**Proof sketch.** Induction on the offset in the character: there is no boundary inside of it, so all
its bytes but the first continue it. -/
lemma Whole.styleAt (h : b.Whole t) (ht : t.Valid) {pos : Nat} {ch : Char}
    (hat : t.charAt pos = some ch) {i : Nat} (hi : i < ch.utf8Size) :
    b.styleAt (pos + i) = b.styleAt pos := by
  induction i with
  | zero => rfl
  | succ i ih =>
    have hinside := Text.not_isBoundary_inside hat (Nat.succ_pos i) hi
    have hle : pos + (i + 1) ≤ t.size := by
      have := Text.le_size_of_isBoundary (Text.isBoundary_add_utf8Size ht hat)
      omega
    have hcont : t.byteIs Text.isContinuation (pos + i + 1) = true := by
      refine (Bool.eq_false_or_eq_true _).resolve_right fun hnot => ?_
      rw [(Text.isBoundary_iff_byteIs ht).mpr ⟨hle, hnot⟩] at hinside
      cases hinside
    rw [← ih (Nat.lt_of_succ_lt hi), Buffer.styleAt, Buffer.styleAt, ← h.styles _ hcont,
      Nat.add_assoc]

/-- A new buffer is plain all over, so its characters are whole. -/
lemma whole_new (t : Text) : (Buffer.new t).Whole t := by
  refine ⟨rfl, fun i hi => ?_⟩
  have hlt := Text.lt_size_of_byteIs hi
  show (Array.replicate t.size Style.plain)[i + 1]? = (Array.replicate t.size Style.plain)[i]?
  rw [Array.getElem?_replicate, Array.getElem?_replicate, if_pos hlt, if_pos (by omega)]

/-- Clearing a whole range keeps characters whole. -/
lemma Whole.clear (h : b.Whole t) (ht : t.Valid) {start length : Nat}
    (hrange : t.WholeRange start (start + length)) : (b.clear start length).Whole t := by
  refine ⟨h.text, fun i hi => ?_⟩
  have hstart := Text.ne_of_isContinuation ht hrange.start hi
  have hstop := Text.ne_of_isContinuation ht hrange.stop hi
  have hlt := Text.lt_size_of_byteIs hi
  have hsize : b.styles.size = t.size := by rw [b.size_styles, h.text]
  rw [Buffer.clear, styles_paint, styles_paint, h.styles i hi]
  congr 1
  simp only [eq_iff_iff]
  omega

/-- An edit between characters that puts in bytes of one style keeps characters whole.

**Proof sketch.** A byte that continues a character and the byte before it stand on the same side of
each end of the edit, because neither end cuts a character. -/
lemma Edited.whole {pos added removed : Nat} (h : b.Edited b₀ pos added removed)
    (hb₀ : b₀.Whole b₀.text) (hpos : b₀.text.isBoundary pos = true)
    (hstop : b₀.text.isBoundary (pos + removed) = true)
    (hplain : ∀ i, pos ≤ i → i < pos + added → b.styles[i]? = some .plain) : b.Whole b.text := by
  refine ⟨rfl, fun i hi => ?_⟩
  have hne := Text.ne_of_isContinuation h.text.valid (h.text.isBoundary_start hpos) hi
  have hne' := Text.ne_of_isContinuation h.text.valid (h.text.isBoundary_stop hstop) hi
  rcases Nat.lt_or_ge (i + 1) pos with hbefore | hfrom
  · rw [h.styles_before _ hbefore, h.styles_before i (by omega)]
    rw [Text.byteIs_congr (h.text.before _ hbefore)] at hi
    exact hb₀.styles i hi
  · rcases Nat.lt_or_ge (i + 1) (pos + added) with hin | hbehind
    · rw [hplain _ hfrom hin, hplain i (by omega) (by omega)]
    · obtain ⟨k, rfl⟩ : ∃ k, i = pos + added + k := ⟨i - (pos + added), by omega⟩
      have hafter := h.text.after (k + 1)
      rw [← Nat.add_assoc] at hafter
      rw [Text.byteIs_congr hafter] at hi
      have := hb₀.styles (pos + removed + k) hi
      rwa [← h.styles_after k, Nat.add_assoc, ← h.styles_after (k + 1), ← Nat.add_assoc] at this

/-- Inserting a text keeps characters whole: all of it gets one style. -/
lemma Whole.insert {pos : Nat} {u : Text} {n : Notification} (h : b.Whole b.text)
    (hb : b.text.Valid) (hu : u.Valid) (hpos : b.text.isBoundary pos = true)
    (he : b.insert pos u = .ok (c, n)) : c.Whole c.text := by
  have hle := Text.le_size_of_isBoundary hpos
  refine (edited_insert hb hu hpos he).whole h hpos hpos fun i h1 h2 => ?_
  unfold Buffer.insert at he
  rw [dif_pos hpos] at he
  cases he
  show (b.styles.extract 0 pos ++ Array.replicate u.size .plain ++
    b.styles.extract pos b.styles.size)[i]? = _
  have hfront := b.size_front hle
  rw [Array.append_assoc, Array.getElem?_append_right (by omega),
    Array.getElem?_append_left (by rw [Array.size_replicate]; omega), Array.getElem?_replicate,
    if_pos (by omega)]

/-- Removing a whole range keeps characters whole. -/
lemma Whole.remove {pos length : Nat} {n : Notification} (h : b.Whole b.text) (hb : b.text.Valid)
    (hpos : b.text.isBoundary pos = true) (hstop : b.text.isBoundary (pos + length) = true)
    (he : b.remove pos length = .ok (c, n)) : c.Whole c.text :=
  (edited_remove hb hpos hstop he).whole h hpos hstop fun i h1 h2 => absurd h2 (by omega)

end Buffer

/-! ### Painting -/

namespace Buffer.Whole

variable {t : Text} {s : Scene} {c : Buffer}

/-- Painting a whole range keeps characters whole, because the section ends between characters.

**Proof sketch.** A byte that continues a character stands at no end of the section or of the range,
so it is painted if and only if the byte before it is. -/
lemma paint (h : c.Whole t) (hs : s.WellFormed) (ht : s.text = t) {start stop : Nat}
    (hrange : t.WholeRange start stop) (style : Style) : (s.paint c start stop style).Whole t := by
  refine ⟨by rw [Scene.text_paint, h.text], fun i hi => ?_⟩
  have hvalid : t.Valid := ht ▸ hs.valid
  have h1 := Text.ne_of_isContinuation hvalid (ht ▸ hs.startBoundary) hi
  have h2 := Text.ne_of_isContinuation hvalid (ht ▸ hs.stopBoundary) hi
  have h3 := Text.ne_of_isContinuation hvalid hrange.start hi
  have h4 := Text.ne_of_isContinuation hvalid hrange.stop hi
  have hlt := Text.lt_size_of_byteIs hi
  have hsize : c.styles.size = t.size := by rw [c.size_styles, h.text]
  rw [Scene.styles_paint, Scene.styles_paint, h.styles i hi]
  congr 1
  simp only [eq_iff_iff]
  omega

/-- What keeps characters whole step by step does so along a list. -/
lemma foldl {α : Type} {g : Buffer → α → Buffer} {xs : List α}
    (hg : ∀ a ∈ xs, ∀ c, c.Whole t → (g c a).Whole t) (h : c.Whole t) : (xs.foldl g c).Whole t := by
  induction xs generalizing c with
  | nil => exact h
  | cons a rest ih =>
    exact ih (fun a' ha' => hg a' (List.mem_cons_of_mem _ ha')) (hg a (List.mem_cons_self ..) c h)

/-- Painting clean literals keeps characters whole. -/
lemma paintAll (h : c.Whole t) (hs : s.WellFormed) (ht : s.text = t) {ivs : Array Interval}
    (hivs : ∀ iv ∈ ivs, iv.Clean t) (style : Style) : (s.paintAll c ivs style).Whole t := by
  unfold Scene.paintAll
  rw [← Array.foldl_toList]
  exact foldl (fun iv hiv c hc => hc.paint hs ht (hivs iv (by simpa using hiv)).wholeRange style) h

/-- Painting around embedded sections paints the gaps between them, which end where these do.

**Proof sketch.** Induction on the embedded sections that the range meets, with the offset that the
painting has come to, which is a boundary. Each gap ends where a section starts, and the painting
goes on where that section ends. -/
lemma paintOutside (h : c.Whole t) (hs : s.WellFormed) (ht : s.text = t) {embedded : IntervalSet}
    (hembedded : ∀ iv ∈ embedded.intervals, t.WholeRange iv.start iv.stop) {start stop : Nat}
    (hrange : t.WholeRange start stop) (style : Style) :
    (s.paintOutside c embedded start stop style).Whole t := by
  unfold Scene.paintOutside
  dsimp only
  have hgaps : ∀ iv ∈ embedded.intervals.toList.filter
      (fun iv => start < iv.stop && iv.start < stop), t.WholeRange iv.start iv.stop :=
    fun iv hiv => hembedded iv (by simpa using (List.mem_filter.mp hiv).1)
  generalize embedded.intervals.toList.filter _ = gaps at hgaps
  have hfold : ∀ state : Buffer × Nat, state.1.Whole t → t.isBoundary state.2 = true →
      (gaps.foldl (fun (state : Buffer × Nat) iv =>
        (s.paint state.1 state.2 (max iv.start state.2) style, max state.2 iv.stop)) state).1.Whole t ∧
      t.isBoundary (gaps.foldl (fun (state : Buffer × Nat) iv =>
        (s.paint state.1 state.2 (max iv.start state.2) style, max state.2 iv.stop)) state).2 =
        true := by
    induction gaps with
    | nil => exact fun state h1 h2 => ⟨h1, h2⟩
    | cons iv rest ih =>
      intro state h1 h2
      have hiv := hgaps iv (List.mem_cons_self ..)
      exact ih (fun iv' hiv' => hgaps iv' (List.mem_cons_of_mem _ hiv')) _
        (h1.paint hs ht ⟨h2, Text.isBoundary_max hiv.start h2⟩ style)
        (Text.isBoundary_max h2 hiv.stop)
  obtain ⟨hcanvas, hfirst⟩ := hfold (c, start) h hrange.start
  exact hcanvas.paint hs ht ⟨hfirst, hrange.stop⟩ style

/-- Painting a tag of whole ranges keeps characters whole. -/
lemma paintTag (h : c.Whole t) (hs : s.WellFormed) (ht : s.text = t) {embedded : IntervalSet}
    (hembedded : ∀ iv ∈ embedded.intervals, t.WholeRange iv.start iv.stop) {tag : TagFind}
    (htag : Frame.TagWhole t tag) : (Pass.paintTag s embedded c tag).Whole t := by
  unfold Pass.paintTag
  refine foldl (fun value hvalue c hc => ?_) (foldl (fun run hrun c hc => ?_) ?_)
  · exact hc.paintOutside hs ht hembedded (htag.values value hvalue) _
  · exact hc.paint hs ht (htag.attributes run hrun) _
  · exact h.paint hs ht htag.name _

/-- So does painting the marks around an embedded section. -/
lemma paintRegionMarks (h : c.Whole t) (hs : s.WellFormed) (ht : s.text = t) {endTag : Mark}
    {r : Region} (hr : Frame.RegionWhole t endTag r) (element : Bool) :
    (Pass.paintRegionMarks s endTag element r c).Whole t := by
  unfold Pass.paintRegionMarks
  split
  · exact h
  · have hstart := h.paint hs ht hr.startTag .embeddedMarker
    dsimp only
    split
    · rename_i closing hclosing
      exact hstart.paint hs ht (hr.endTag closing hclosing) .embeddedMarker
    · exact hstart

variable {f : Frame} {step : Nat → Nat → Unit → Checked (Sweep.Move Unit (Nat × Nat))}

/-- So does painting the tokens of a scan that accepts whole ranges. -/
lemma paintTokens (h : c.Whole f.text) (hs : s.WellFormed) (hf : f.WellFormed) (ht : s.text = f.text)
    (hstep : f.AcceptsWhole step) {style : Style} {d : Buffer}
    (hpaint : Pass.paintTokens s f step style c = .ok d) : d.Whole f.text := by
  have hstop := (Frame.tokenRange_fits hs hf ht).1.stopBoundary
  obtain ⟨harvest, hharvest, hpaint⟩ := bind_eq_ok.mp hpaint
  cases hpaint
  have htokens : ∀ token ∈ harvest.items, f.text.WholeRange token.1 token.2 :=
    Sweep.forall_mem_collect (J := fun _ _ => True)
      (fun pos u verdict next u' _ hgo => ⟨trivial, hstep pos _ verdict next u' hstop hgo⟩) trivial
      hharvest
  rw [← Array.foldl_toList]
  exact foldl (fun token htoken c hc => hc.paint hs ht (htokens token (by simpa using htoken)) style) h

/-- So does painting the occurrences of a mark. -/
lemma paintOccurrences (h : c.Whole f.text) (hs : s.WellFormed) (hf : f.WellFormed)
    (ht : s.text = f.text) {l : Layout} {condition : Condition} {needle : Mark}
    (hn : needle.IsPlain) {tokenEnd : Frame.TokenEnd} (hend : Frame.TokenEnd.Whole f needle tokenEnd)
    {style : Style} {d : Buffer}
    (hpaint : Pass.paintOccurrences s f l condition needle tokenEnd style c = .ok d) :
    d.Whole f.text := by
  unfold Pass.paintOccurrences at hpaint
  split at hpaint
  · cases hpaint
    exact h
  · exact h.paintTokens hs hf ht (Frame.tokenStep_whole hn hend) hpaint

end Buffer.Whole

/-! ### Primitives -/

/-- Characters of the canvas are whole, and so are the embedded sections mapped so far. -/
structure Pass.Whole (t : Text) (p : Pass) : Prop where
  canvas : p.canvas.Whole t
  embedded : ∀ iv ∈ p.layout.embedded.intervals, t.WholeRange iv.start iv.stop

namespace Pass

variable {f : Frame} {s : Scene} {p q : Pass}

/-- Asking for a repair changes neither the canvas nor the sections. -/
lemma Whole.repairIf {t : Text} (hp : p.Whole t) {changed : Bool} {reason : RepairReason} :
    (p.repairIf s f changed reason).Whole t :=
  ⟨by rw [canvas_repairIf]; exact hp.canvas, by rw [layout_repairIf]; exact hp.embedded⟩

section Literals

variable (hs : s.WellFormed) (hf : f.WellFormed) (ht : s.text = f.text) (hp : p.Whole f.text)
include hs hf ht hp

/-- Mapping quotes keeps characters whole. -/
lemma mapQuotes_whole {singleLine : Bool} (h : p.mapQuotes s f singleLine = .ok q) :
    q.Whole f.text := by
  obtain ⟨_, -, h⟩ := bind_eq_ok.mp h
  obtain ⟨harvest, hharvest, h⟩ := bind_eq_ok.mp h
  cases h
  refine Whole.repairIf ?_
  exact ⟨hp.canvas.paintAll hs ht (Frame.quotes_clean hf hharvest) _, hp.embedded⟩

/-- So does mapping line comments. -/
lemma mapLineComments_whole {marks : List Mark} (hm : ∀ m ∈ marks, m.IsPlain)
    (h : p.mapLineComments s f marks = .ok q) : q.Whole f.text := by
  obtain ⟨harvest, hharvest, h⟩ := bind_eq_ok.mp h
  cases h
  have hclean := Frame.lineComments_clean hf hm hharvest
  refine Whole.repairIf ?_
  exact ⟨hp.canvas.paintAll hs ht (fun iv hiv => (hclean iv hiv).1) _, hp.embedded⟩

/-- So does mapping block comments. -/
lemma mapBlockComments_whole {opener closer : Mark} (hopener : opener.IsPlain)
    (hcloser : closer.IsPlain) {ignoreQuoted : Bool}
    (h : p.mapBlockComments s f opener closer ignoreQuoted = .ok q) : q.Whole f.text := by
  obtain ⟨harvest, hharvest, h⟩ := bind_eq_ok.mp h
  cases h
  exact ⟨hp.canvas.paintAll hs ht (Frame.blockComments_clean hf hopener hcloser hharvest) _,
    hp.embedded⟩

/-- So does mapping heredocs. -/
lemma mapHeredocs_whole (hd : ∀ r, f.dialect.heredocs = some r → r.opener.IsPlain)
    (h : p.mapHeredocs s f = .ok q) : q.Whole f.text := by
  rcases mapHeredocs_cases h with
    ⟨-, rfl⟩ | ⟨rules, harvest, set, changed, hrules, hharvest, -, -, rfl⟩
  · exact hp
  · have hclean := Frame.heredocs_clean hf (hd rules hrules) hharvest
    refine Whole.repairIf ?_
    refine ⟨?_, hp.embedded⟩
    rw [← Array.foldl_toList]
    refine Buffer.Whole.foldl (fun found hfound c hc => ?_) hp.canvas
    obtain ⟨htag, hbody⟩ := hclean found (by simpa using hfound)
    have htag' := hc.paint hs ht htag.wholeRange .string
    cases hempty : found.2.isEmpty with
    | true =>
      rw [Scene.paint_of_le s _ (of_decide_eq_true hempty)]
      exact htag'
    | false => exact htag'.paint hs ht (hbody hempty).wholeRange .string

/-- So does mapping quote operators. -/
lemma mapOperators_whole (h : p.mapOperators s f = .ok q) : q.Whole f.text := by
  rcases mapOperators_cases h with ⟨-, rfl⟩ | ⟨rules, harvest, set, changed, -, hharvest, -, rfl⟩
  · exact hp
  · refine Whole.repairIf ?_
    exact ⟨hp.canvas.paintAll hs ht (Frame.operators_clean hf hharvest) _, hp.embedded⟩

/-- So does mapping tags, whose ranges are whole. -/
lemma mapTags_whole (h : p.mapTags s f = .ok q) : q.Whole f.text := by
  obtain ⟨harvest, hharvest, h⟩ := bind_eq_ok.mp h
  cases h
  have hwhole := Frame.tags_whole hf hharvest
  refine ⟨?_, hp.embedded⟩
  dsimp only
  rw [← Array.foldl_toList]
  exact Buffer.Whole.foldl
    (fun tag htag c hc => hc.paintTag hs ht hp.embedded (hwhole tag (by simpa using htag))) hp.canvas

/-- Painting keywords keeps characters whole, word by word. -/
lemma paintKeywords_whole {words : List Mark} (hw : ∀ w ∈ words, w.IsPlain) {wholeWord : Bool}
    {notAfter : List Char} {style : Style}
    (h : p.paintKeywords s f words wholeWord notAfter style = .ok q) : q.Whole f.text := by
  obtain ⟨canvas, hcanvas, h⟩ := bind_eq_ok.mp h
  cases h
  refine ⟨foldlM_induction (I := Buffer.Whole f.text) (fun word hword c d hc hd => ?_) hp.canvas
    hcanvas, hp.embedded⟩
  exact hc.paintOccurrences hs hf ht (hw word hword) (Frame.wordEnd_whole hf (hw word hword) _ _) hd

/-- So does painting extensible words. -/
lemma paintExtensible_whole {base : Mark} (hb : base.IsPlain) {suffixes : List Mark}
    (hsuffixes : ∀ m ∈ suffixes, m.IsPlain) {style : Style}
    (h : p.paintExtensible s f base suffixes style = .ok q) : q.Whole f.text := by
  obtain ⟨canvas, hcanvas, h⟩ := bind_eq_ok.mp h
  cases h
  exact ⟨hp.canvas.paintOccurrences hs hf ht hb (Frame.extendedEnd_whole hf hb hsuffixes) hcanvas,
    hp.embedded⟩

/-- So does painting variables. -/
lemma paintVariables_whole {sign : Char} {ends exceptions : List Char}
    (h : p.paintVariables s f sign ends exceptions = .ok q) : q.Whole f.text := by
  obtain ⟨canvas, hcanvas, h⟩ := bind_eq_ok.mp h
  cases h
  exact ⟨hp.canvas.paintTokens hs hf ht Frame.variableStep_whole hcanvas, hp.embedded⟩

/-- So does painting single bytes. -/
lemma paintMarks_whole {bytes : List UInt8} (hb : ∀ b ∈ bytes, b < 0x80) {style : Style}
    (h : p.paintMarks s f bytes style = .ok q) : q.Whole f.text := by
  obtain ⟨canvas, hcanvas, h⟩ := bind_eq_ok.mp h
  cases h
  exact ⟨hp.canvas.paintTokens hs hf ht (Frame.markStep_whole hf hb) hcanvas, hp.embedded⟩

end Literals

/-! ### Embedded sections -/

/-- The program of an embedded language keeps characters whole in every scope of the text. -/
def BodyWhole (t : Text) (dialect : Dialect) (body : Frame → Pass → Checked Pass) : Prop :=
  ∀ (g : Frame) (q r : Pass), g.WellFormed → g.text = t → g.dialect = dialect → q.Whole t →
    body g q = .ok r → r.Whole t

/-- Handing a part of the text to an embedded language keeps characters whole if its program does.
The embedded sections of the outer scope stay as they are. -/
lemma delegate_whole (hf : f.WellFormed) (hp : p.Whole f.text) {lo hi : Nat} {dialect : Dialect}
    {body : Frame → Pass → Checked Pass} (hbody : BodyWhole f.text dialect body)
    (h : p.delegate f lo hi dialect body = .ok q) : q.Whole f.text := by
  obtain ⟨g, hg, h⟩ := bind_eq_ok.mp h
  obtain ⟨r, hr, h⟩ := bind_eq_ok.mp h
  cases h
  obtain ⟨part, hslice, -⟩ := bind_eq_ok.mp hg
  obtain ⟨_, hrange, -⟩ := bind_eq_ok.mp hslice
  obtain ⟨hle, hlo, hhi⟩ := Text.isBoundary_of_checkRange hrange
  obtain ⟨hwf, htext, -, -, hdialect, -⟩ := (Frame.enter_ensures hf hlo hhi hle dialect).elim hg
  have hwhole := hbody g ⟨p.canvas, .empty, p.nested, .unconditional, p.repair⟩ r hwf htext hdialect
    ⟨hp.canvas, by simp [Layout.empty, IntervalSet.empty]⟩ hr
  exact ⟨hwhole.canvas, hp.embedded⟩

/-- The sections that are added for whole regions are whole ranges. -/
lemma foldl_addRegion_whole {t : Text} {endTag : Mark} {regions : List Region}
    (hregions : ∀ r ∈ regions, Frame.RegionWhole t endTag r) {embedded : IntervalSet}
    (hembedded : ∀ iv ∈ embedded.intervals, t.WholeRange iv.start iv.stop) :
    ∀ iv ∈ (regions.foldl Frame.addRegion embedded).intervals, t.WholeRange iv.start iv.stop := by
  induction regions generalizing embedded with
  | nil => exact hembedded
  | cons r rest ih =>
    refine ih (fun r' hr' => hregions r' (List.mem_cons_of_mem _ hr')) fun iv hiv => ?_
    unfold Frame.addRegion at hiv
    split at hiv
    · exact hembedded iv hiv
    · rcases IntervalSet.mem_add.mp hiv with rfl | hiv
      · exact (hregions r (List.mem_cons_self ..)).interval
      · exact hembedded iv hiv

/-- Mapping embedded sections keeps characters whole.

**Proof sketch.** The marks around each section and the section itself are whole by `regions_whole`,
and the program of the embedded language keeps characters whole in every scope. -/
lemma mapRegions_whole (hs : s.WellFormed) (hf : f.WellFormed) (ht : s.text = f.text)
    (hp : p.Whole f.text) {startTag endTag : Mark} (hstart : startTag.IsPlain)
    (hend : endTag.IsPlain) {element : Bool} {name : String} {dialect : Dialect}
    {body : Frame → Pass → Checked Pass} (hbody : BodyWhole f.text dialect body)
    (h : p.mapRegions s f startTag endTag element name dialect body = .ok q) : q.Whole f.text := by
  unfold mapRegions at h
  split at h
  · cases h
    exact hp
  · obtain ⟨harvest, hharvest, h⟩ := bind_eq_ok.mp h
    have hregions := Frame.regions_whole hf hstart hend hharvest
    have hlist : ∀ r ∈ harvest.items.toList, Frame.RegionWhole f.text endTag r :=
      fun r hr => hregions r (by simpa using hr)
    rw [← Array.foldlM_toList, ← Array.foldl_toList] at h
    refine foldlM_induction (I := Whole f.text) (fun r hr c d hc hd => ?_) ?_ h
    · refine delegate_whole hf ?_ hbody hd
      exact ⟨hc.canvas.paintRegionMarks hs ht (hlist r hr) element, hc.embedded⟩
    · exact ⟨hp.canvas, foldl_addRegion_whole hlist hp.embedded⟩

/-- So does taking the whole scope for a section. -/
lemma embedScope_whole (hf : f.WellFormed) (hp : p.Whole f.text) {name : String} {dialect : Dialect}
    {body : Frame → Pass → Checked Pass} (hbody : BodyWhole f.text dialect body)
    (h : p.embedScope f name dialect body = .ok q) : q.Whole f.text := by
  unfold embedScope at h
  refine delegate_whole hf ?_ hbody h
  refine ⟨hp.canvas, fun iv hiv => ?_⟩
  dsimp only at hiv
  split at hiv
  · exact hp.embedded iv hiv
  · rcases IntervalSet.mem_add.mp hiv with rfl | hiv
    · exact ⟨hf.loBoundary, hf.hiBoundary⟩
    · exact hp.embedded iv hiv

end Pass

/-! ### Programs -/

namespace Primitive

variable {s : Scene}

mutual

/-- A sound primitive keeps characters whole.

**Proof sketch.** One case for each primitive, each of which is a lemma. -/
theorem run_whole (hs : s.WellFormed) :
    ∀ (primitive : Primitive) (opened : Bool) (f : Frame) (p q : Pass),
      sound opened primitive = true → f.WellFormed → s.text = f.text → f.dialect.isPlain = true →
      p.Whole f.text → run s primitive f p = .ok q → q.Whole f.text
  | .setCondition condition, opened, f, p, q, _, _, _, _, hp, h => by
    simp only [run] at h
    cases h
    exact ⟨hp.canvas, hp.embedded⟩
  | .quotes singleLine, opened, f, p, q, _, hf, ht, _, hp, h => by
    simp only [run] at h
    exact Pass.mapQuotes_whole hs hf ht hp h
  | .lineComments openers, opened, f, p, q, hsound, hf, ht, _, hp, h => by
    simp only [run] at h
    simp only [sound, List.all_eq_true, decide_eq_true_eq] at hsound
    exact Pass.mapLineComments_whole hs hf ht hp hsound h
  | .blockComments opener closer ignoreQuoted, opened, f, p, q, hsound, hf, ht, _, hp, h => by
    simp only [run] at h
    simp only [sound, Bool.and_eq_true, decide_eq_true_eq] at hsound
    exact Pass.mapBlockComments_whole hs hf ht hp hsound.1 hsound.2 h
  | .keywords words wholeWord notAfter style, opened, f, p, q, hsound, hf, ht, _, hp, h => by
    simp only [run] at h
    simp only [sound, List.all_eq_true, decide_eq_true_eq] at hsound
    exact Pass.paintKeywords_whole hs hf ht hp hsound h
  | .extensibleKeyword base suffixes style, opened, f, p, q, hsound, hf, ht, _, hp, h => by
    simp only [run] at h
    simp only [sound, Bool.and_eq_true, decide_eq_true_eq] at hsound
    exact Pass.paintExtensible_whole hs hf ht hp hsound.1 (by simpa using hsound.2) h
  | .signedVariable sign ends exceptions, opened, f, p, q, _, hf, ht, _, hp, h => by
    simp only [run] at h
    exact Pass.paintVariables_whole hs hf ht hp h
  | .marks bytes style, opened, f, p, q, hsound, hf, ht, _, hp, h => by
    simp only [run] at h
    simp only [sound, List.all_eq_true, Bool.and_eq_true, decide_eq_true_eq] at hsound
    exact Pass.paintMarks_whole hs hf ht hp (fun b hb => (hsound b hb).1) h
  | .heredocs, opened, f, p, q, _, hf, ht, hd, hp, h => by
    simp only [run] at h
    refine Pass.mapHeredocs_whole hs hf ht hp (fun r hr => ?_) h
    simpa [Dialect.isPlain, hr] using hd
  | .quoteOperators, opened, f, p, q, _, hf, ht, _, hp, h => by
    simp only [run] at h
    exact Pass.mapOperators_whole hs hf ht hp h
  | .tags, opened, f, p, q, _, hf, ht, _, hp, h => by
    simp only [run] at h
    exact Pass.mapTags_whole hs hf ht hp h
  | .innerSection startTag endTag element name dialect body, opened, f, p, q, hsound, hf, ht, _, hp,
      h => by
    simp only [run] at h
    simp only [sound, Bool.and_eq_true, decide_eq_true_eq] at hsound
    obtain ⟨⟨⟨⟨hstart, hend⟩, hd⟩, hbody⟩, -⟩ := hsound
    refine Pass.mapRegions_whole hs hf ht hp hstart hend (fun g q r hg hgt hgd hq hr => ?_) h
    subst hgd
    rw [← hgt] at hq ⊢
    exact runAll_whole hs body true g q r hbody hg (ht.trans hgt.symm) hd hq hr
  | .embedScope name dialect body, opened, f, p, q, hsound, hf, ht, _, hp, h => by
    simp only [run] at h
    simp only [sound, Bool.and_eq_true] at hsound
    refine Pass.embedScope_whole hf hp (fun g q r hg hgt hgd hq hr => ?_) h
    subst hgd
    rw [← hgt] at hq ⊢
    exact runAll_whole hs body true g q r hsound.2 hg (ht.trans hgt.symm) hsound.1 hq hr
  | .ifContains needle yes no, opened, f, p, q, hsound, hf, ht, hd, hp, h => by
    simp only [run] at h
    simp only [sound, Bool.and_eq_true] at hsound
    split at h
    · exact runAll_whole hs yes opened f p q hsound.1 hf ht hd hp h
    · exact runAll_whole hs no opened f p q hsound.2 hf ht hd hp h

/-- **Whole characters along a run.** A sound program keeps characters whole.

**Proof sketch.** Induction on the program. -/
theorem runAll_whole (hs : s.WellFormed) :
    ∀ (program : List Primitive) (opened : Bool) (f : Frame) (p q : Pass),
      soundAll opened program = true → f.WellFormed → s.text = f.text → f.dialect.isPlain = true →
      p.Whole f.text → runAll s program f p = .ok q → q.Whole f.text
  | [], opened, f, p, q, _, _, _, _, hp, h => by
    simp only [runAll] at h
    cases h
    exact hp
  | primitive :: rest, opened, f, p, q, hsound, hf, ht, hd, hp, h => by
    simp only [soundAll, Bool.and_eq_true] at hsound
    rcases eq_or_of_runAll_cons h with rfl | ⟨p₁, hp₁, h⟩
    · exact hp
    · exact runAll_whole hs rest _ f p₁ q hsound.2 hf ht hd
        (run_whole hs primitive opened f p p₁ hsound.1 hf ht hd hp hp₁) h

end

end Primitive

/-! ### Passes and requests -/

/-- A pass keeps characters whole: it clears its section, which ends between characters, and runs its
program. -/
lemma Profile.runPass_whole {profile : Profile} (hprofile : profile.Sound) {doc : Buffer}
    (hdoc : doc.Whole doc.text) {start length : Nat} {detect : Bool}
    (hs : Scene.WellFormed ⟨doc.text, start, start + length, detect⟩) {layout : Layout}
    {nested : IntervalSet} {pass : Pass}
    (hpass : profile.runPass doc start length detect layout nested = .ok pass) :
    pass.canvas.Whole doc.text := by
  unfold runPass at hpass
  refine (Primitive.runAll_whole hs profile.program true _ _ pass hprofile.2
    (Frame.wellFormed_document hs.valid _) rfl hprofile.1 ⟨?_, ?_⟩ hpass).canvas
  · exact hdoc.clear hs.valid ⟨hs.startBoundary, hs.stopBoundary⟩
  · simp [Layout.reset, Layout.mapSets, IntervalSet.reset]

namespace Painter

variable {p p' : Painter} {profile : Profile} {doc doc' : Buffer}

/-- A full pass keeps characters whole. -/
lemma full_whole (hprofile : profile.Sound) (hdoc : doc.Whole doc.text) (hv : doc.text.Valid)
    (h : p.full profile doc = .ok (p', doc')) : doc'.Whole doc.text := by
  obtain ⟨pass, hpass, h⟩ := bind_eq_ok.mp h
  cases h
  refine profile.runPass_whole hprofile hdoc ?_ hpass
  rw [Nat.zero_add]
  exact Scene.wellFormed_whole hv false

/-- A pass after an edit keeps characters whole, also if it is a repair, which is a full pass. -/
lemma edit_whole (hprofile : profile.Sound) (hdoc : doc.Whole doc.text) (hv : doc.text.Valid)
    {s : Section} (hs : s.Lies doc.text) {w : EditWindow} {kind : PassKind}
    (h : p.edit profile doc s w = .ok (kind, p', doc')) : doc'.Whole doc.text := by
  rcases edit_eq_ok h with ⟨-, h⟩ | ⟨pass, hpass, hend⟩
  · exact full_whole hprofile hdoc hv h
  · have hcanvas := profile.runPass_whole hprofile hdoc (hs.scene hv true) hpass
    rcases hend with ⟨-, -, -, rfl⟩ | ⟨reason, -, -, h⟩
    · exact hcanvas
    · have htext := hcanvas.text
      rw [← htext] at hcanvas hv ⊢
      exact full_whole hprofile hcanvas hv h

end Painter

/-- Whatever a highlighter paints keeps characters whole. -/
lemma Highlighter.Paints.whole {h : Highlighter} {doc doc' : Buffer} {n : Option Notification}
    {kind : PassKind} {painter : Painter} (hpaints : h.Paints doc n kind painter doc')
    (hh : h.Healthy) (hdoc : doc.Whole doc.text) (hv : doc.text.Valid) : doc'.Whole doc.text := by
  cases hpaints with
  | plain hp =>
    refine hdoc.clear hv ⟨Text.isBoundary_zero _, ?_⟩
    rw [Nat.zero_add]
    exact Text.isBoundary_size _
  | full hp hfull => exact Painter.full_whole (hh.sound hp) hdoc hv hfull
  | edit hp hold hn hrange hs hw hedit =>
    exact Painter.edit_whole (hh.sound hp) hdoc hv ((Section.lines_ensures hv _ _).elim hs).1 hedit

/-- Whether a request sets styles itself. -/
def Request.setsStyles : Request → Bool
  | .paint .. => true
  | _ => false

/-- A request that does not set styles itself keeps characters whole.

**Proof sketch.** The edit of a request stands between characters, so `Buffer.Edited.whole` takes the
styles over to the edited text, where the highlighter paints. A request that edits nothing leaves the
characters as they are. -/
theorem Session.Steps.whole {s s' : Session} {request : Request} {kind : Option PassKind}
    (hstep : s.Steps request kind s') (hs : s.Healthy) (ha : request.Admissible s.doc.text)
    (hr : request.setsStyles = false) (hdoc : s.doc.Whole s.doc.text) : s'.doc.Whole s'.doc.text := by
  have hanswer : ∀ {edited doc : Buffer} {n : Option Notification} {kind : PassKind}
      {h : Highlighter}, edited.text.Valid → edited.Whole edited.text →
      s.highlighter.Answers edited n kind h doc → doc.Whole doc.text := by
    intro edited doc n kind h hv hedited ha
    have hwhole := ha.paints.whole hs.highlighter hedited hv
    rwa [← hwhole.text] at hwhole
  cases hstep with
  | highlight hpaint => exact hanswer hs.valid hdoc hpaint
  | insert he hpaint =>
    exact hanswer (Buffer.edited_insert hs.valid ha.1 ha.2 he).text.valid
      (hdoc.insert hs.valid ha.1 ha.2 he) hpaint
  | insertQuietly he => exact hdoc.insert hs.valid ha.1 ha.2 he
  | remove he hpaint =>
    exact hanswer (Buffer.edited_remove hs.valid ha.1 ha.2 he).text.valid
      (hdoc.remove hs.valid ha.1 ha.2 he) hpaint
  | removeQuietly he => exact hdoc.remove hs.valid ha.1 ha.2 he
  | notify hpaint => exact hanswer hs.valid hdoc hpaint
  | setLanguage language => exact hdoc
  | paint start length style => cases hr

end LexPaint
