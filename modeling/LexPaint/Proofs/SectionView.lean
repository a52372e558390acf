import LexPaint.Pass.Run
import LexPaint.Proofs.TokenCuts

set_option relaxedAutoImplicit false
set_option autoImplicit false

/-!
# What a section shows

A pass paints what falls into its section. Two passes over one text that paint the same ranges, each
as far as its own section goes, look the same wherever both of them paint. Ranges that come from the
layout are the same for both anyway. Tokens are only looked for in the section, but a token lies on
one line and a section consists of full lines, so the tokens in the section are those of the whole
document that start there.

## Main definitions

* `Scene.PartOf`: a section inside another one.
* `Scene.document`, `Scene.whole`: the whole document as a section.
* `Scene.SameView`: two canvases that look the same in a section.

## Main results

* `Frame.Scans.tokens_in_section`: the tokens that a scan finds in a section.
* `Pass.paintTokens_sameView`: painting tokens in a section and in the whole document.
-/

namespace LexPaint

namespace Scene

/-- A section that lies in another section of the same text. -/
structure PartOf (s s' : Scene) : Prop where
  text : s.text = s'.text
  start_le : s'.start ≤ s.start
  le_stop : s.stop ≤ s'.stop

/-- All of a document, without looking out for changes. -/
def document (t : Text) : Scene :=
  ⟨t, 0, t.size, false⟩

/-- All of the document that a section is part of. -/
def whole (s : Scene) : Scene :=
  .document s.text

/-- A section is a part of the document. -/
lemma WellFormed.partOf_whole {s : Scene} (hs : s.WellFormed) : s.PartOf s.whole :=
  ⟨rfl, Nat.zero_le _, hs.stop_le⟩

/-- The document as a section is well formed. -/
lemma WellFormed.whole {s : Scene} (hs : s.WellFormed) : s.whole.WellFormed :=
  wellFormed_whole hs.valid false

/-- The two canvases hold the same text and look the same in the section. -/
structure SameView (s : Scene) (c c' : Buffer) : Prop where
  text : c.text = c'.text
  styles : ∀ i, s.start ≤ i → i < s.stop → c.styles[i]? = c'.styles[i]?

variable {s s' : Scene} {c c' : Buffer}

/-- Painting an empty range changes nothing. -/
lemma paint_of_le (s : Scene) (c : Buffer) {start stop : Nat} (h : stop ≤ start) (style : Style) :
    s.paint c start stop style = c := by
  unfold paint
  dsimp only
  rw [if_neg (by omega)]

/-- Painting a range changes the bytes of the range that lie in the section.

**Proof sketch.** The range is cut to the section before it is painted. -/
lemma styles_paint (s : Scene) (c : Buffer) (start stop i : Nat) (style : Style) :
    (s.paint c start stop style).styles[i]? =
      if (s.start ≤ i ∧ i < s.stop) ∧ (start ≤ i ∧ i < stop) ∧ i < c.styles.size then some style
      else c.styles[i]? := by
  unfold paint
  dsimp only
  split
  · rw [Buffer.styles_paint]
    congr 1
    simp only [eq_iff_iff]
    omega
  · rw [if_neg]
    omega

namespace SameView

/-- Canvases that look the same have the same length. -/
lemma size_eq (h : s.SameView c c') : c.styles.size = c'.styles.size := by
  rw [c.size_styles, c'.size_styles, h.text]

/-- Painting one range in both sections. -/
lemma paint (hs : s.PartOf s') (h : s.SameView c c') (start stop : Nat) (style : Style) :
    s.SameView (s.paint c start stop style) (s'.paint c' start stop style) := by
  refine ⟨by rw [text_paint, text_paint, h.text], fun i h1 h2 => ?_⟩
  have h3 := hs.start_le
  have h4 := hs.le_stop
  rw [styles_paint, styles_paint, h.size_eq, h.styles i h1 h2]
  congr 1
  simp only [eq_iff_iff]
  omega

/-- Painting a range outside the smaller section changes nothing there. -/
lemma paint_outside (h : s.SameView c c') {start stop : Nat}
    (hout : ∀ i, s.start ≤ i → i < s.stop → ¬ (start ≤ i ∧ i < stop)) (style : Style) :
    s.SameView c (s'.paint c' start stop style) := by
  refine ⟨by rw [text_paint, h.text], fun i h1 h2 => ?_⟩
  rw [styles_paint, if_neg fun hi => hout i h1 h2 hi.2.1, h.styles i h1 h2]

/-- Canvases look the same after steps that keep that. -/
lemma foldl {α : Type} {g g' : Buffer → α → Buffer}
    (hg : ∀ c c' a, s.SameView c c' → s.SameView (g c a) (g' c' a)) (h : s.SameView c c')
    (xs : List α) : s.SameView (xs.foldl g c) (xs.foldl g' c') := by
  induction xs generalizing c c' with
  | nil => exact h
  | cons x rest ih => exact ih (hg _ _ x h)

/-- Painting intervals in both sections. -/
lemma paintAll (hs : s.PartOf s') (h : s.SameView c c') (ivs : Array Interval) (style : Style) :
    s.SameView (s.paintAll c ivs style) (s'.paintAll c' ivs style) := by
  rw [Scene.paintAll, Scene.paintAll, ← Array.foldl_toList, ← Array.foldl_toList]
  exact h.foldl (fun _ _ iv h => h.paint hs iv.start iv.stop style) _

/-- Painting a range around embedded sections in both sections. -/
lemma paintOutside (hs : s.PartOf s') (h : s.SameView c c') {embedded embedded' : IntervalSet}
    (he : embedded.intervals = embedded'.intervals) (start stop : Nat) (style : Style) :
    s.SameView (s.paintOutside c embedded start stop style)
      (s'.paintOutside c' embedded' start stop style) := by
  unfold Scene.paintOutside
  rw [he]
  dsimp only
  generalize embedded'.intervals.toList.filter _ = gaps
  have hfold : ∀ (c c' : Buffer) (first : Nat), s.SameView c c' → ∃ d d' : Buffer, ∃ last : Nat,
      gaps.foldl (fun (state : Buffer × Nat) iv =>
        (s.paint state.1 state.2 (max iv.start state.2) style, max state.2 iv.stop)) (c, first) =
          (d, last) ∧
      gaps.foldl (fun (state : Buffer × Nat) iv =>
        (s'.paint state.1 state.2 (max iv.start state.2) style, max state.2 iv.stop)) (c', first) =
          (d', last) ∧ s.SameView d d' := by
    induction gaps with
    | nil => exact fun c c' first h => ⟨c, c', first, rfl, rfl, h⟩
    | cons iv rest ih => exact fun c c' first h => ih _ _ _ (h.paint hs _ _ _)
  obtain ⟨d, d', last, h1, h2, hd⟩ := hfold c c' start h
  rw [h1, h2]
  exact hd.paint hs _ _ _

/-- Painting a tag in both sections. -/
lemma paintTag (hs : s.PartOf s') (h : s.SameView c c') {embedded embedded' : IntervalSet}
    (he : embedded.intervals = embedded'.intervals) (tag : TagFind) :
    s.SameView (Pass.paintTag s embedded c tag) (Pass.paintTag s' embedded' c' tag) := by
  unfold Pass.paintTag
  refine foldl (fun _ _ value h => h.paintOutside hs he value.1 value.2 .attributeValue) ?_ _
  refine foldl (fun _ _ run h => h.paint hs run.1 run.2 .attributeName) ?_ _
  exact h.paint hs _ _ _

/-- Painting the marks of an embedded section in both sections. -/
lemma paintRegionMarks (hs : s.PartOf s') (h : s.SameView c c') (endTag : Mark) (element : Bool)
    (r : Region) :
    s.SameView (Pass.paintRegionMarks s endTag element r c)
      (Pass.paintRegionMarks s' endTag element r c') := by
  unfold Pass.paintRegionMarks
  split
  · exact h
  · dsimp only
    split
    · exact (h.paint hs _ _ _).paint hs _ _ _
    · exact h.paint hs _ _ _

/-- Tokens of which only some fall into the section: painting those there looks like painting all of
them.

**Proof sketch.** Induction on the tokens. Those that do not start in the section do not reach into
it. -/
lemma tokens (hs : s.PartOf s') (h : s.SameView c c') {tokens : List (Nat × Nat)}
    {inside : Nat × Nat → Bool}
    (hout : ∀ token ∈ tokens, inside token = false →
      ∀ i, s.start ≤ i → i < s.stop → ¬ (token.1 ≤ i ∧ i < token.2)) (style : Style) :
    s.SameView
      ((tokens.filter inside).foldl (fun c token => s.paint c token.1 token.2 style) c)
      (tokens.foldl (fun c token => s'.paint c token.1 token.2 style) c') := by
  induction tokens generalizing c c' with
  | nil => exact h
  | cons token rest ih =>
    have hrest : ∀ token ∈ rest, inside token = false →
        ∀ i, s.start ≤ i → i < s.stop → ¬ (token.1 ≤ i ∧ i < token.2) :=
      fun token ht => hout token (List.mem_cons_of_mem _ ht)
    rw [List.filter_cons, List.foldl_cons]
    split
    · exact ih (h.paint hs _ _ _) hrest
    · rename_i hn
      exact ih (h.paint_outside (hout token (List.mem_cons_self ..) (by simpa using hn)) style) hrest

end SameView

end Scene

/-! ### Tokens in a section -/

namespace Frame

variable {f : Frame} {s : Scene} {pos b c : Nat}
variable {step : Nat → Nat → Unit → Checked (Sweep.Move Unit (Nat × Nat))}

/-- A scan that can be cut wherever a line starts or ends. -/
def Cuts (f : Frame) (step : Nat → Nat → Unit → Checked (Sweep.Move Unit (Nat × Nat))) : Prop :=
  ∀ b c, f.CutRange b c → f.CutsAt step b c

/-- The tokens of a scan are those that start before a cut and those that start behind it.

**Proof sketch.** A scan can be cut where a line starts or ends. What it finds up to there starts in
front of the cut, and what it finds from there on starts behind it. -/
lemma Scans.collect_split (hscan : f.Scans step) (hcuts : f.Cuts step) (hr : f.CutRange b c)
    (hlo : f.lo ≤ pos) (hpos : pos ≤ b) (hpb : f.text.isBoundary pos = true)
    {h : Sweep.Harvest (Nat × Nat)} (hc : Sweep.collect (step c) c pos () = .ok h) :
    ∃ h₁ h₂, Sweep.collect (step b) b pos () = .ok h₁ ∧ Sweep.collect (step c) c b () = .ok h₂ ∧
      h₁.items.toList = h.items.toList.filter (fun token => token.1 < b) ∧
      h₂.items.toList = h.items.toList.filter (fun token => b ≤ token.1) := by
  obtain ⟨h₁, hb, hcut⟩ := Sweep.collect_cut hpos hr.ordered
    (fun p hp hJ => hcuts b c hr p hJ.1 hp hJ.2) ⟨hlo, hpb⟩
  rw [hc] at hcut
  cases hrest : Sweep.collect (step c) c b () with
  | error fault =>
    rw [hrest] at hcut
    cases hcut
  | ok h₂ =>
    rw [hrest] at hcut
    -- in front of the cut and behind it
    have hh : h = h₁.append h₂ := Except.ok.inj hcut
    have hin₁ := (hscan.collect_ensures (hr.before hlo hpos) hpb).elim hb
    have hin₂ := (hscan.collect_ensures hr.behind hr.cutBoundary).elim hrest
    refine ⟨h₁, h₂, hb, rfl, ?_, ?_⟩
    · rw [hh, Sweep.Harvest.append, Array.toList_append, List.filter_append,
        List.filter_eq_self.mpr, List.filter_eq_nil_iff.mpr, List.append_nil]
      · intro token ht
        have := (hin₂ token (by simpa using ht)).1
        simp only [decide_eq_true_eq]
        omega
      · intro token ht
        have := (hin₁ token (by simpa using ht)).2.1
        simpa using this
    · rw [hh, Sweep.Harvest.append, Array.toList_append, List.filter_append,
        List.filter_eq_nil_iff.mpr, List.filter_eq_self.mpr, List.nil_append]
      · intro token ht
        have := (hin₂ token (by simpa using ht)).1
        simpa using this
      · intro token ht
        have := (hin₁ token (by simpa using ht)).2.1
        simp only [decide_eq_true_eq]
        omega

/-- **Tokens in a section.** A scan of the part of a section that lies in the scope finds those
tokens of the whole scope that start in the section.

**Proof sketch.** The scan of the scope is cut where the section starts and where it ends, unless
the scope starts or ends there first. -/
theorem Scans.tokens_in_section (hscan : f.Scans step) (hcuts : f.Cuts step) (hf : f.WellFormed)
    (hs : s.WellFormed) (ht : s.text = f.text) {h h' : Sweep.Harvest (Nat × Nat)}
    (hfull : Sweep.collect (step f.hi) f.hi f.lo () = .ok h)
    (hpart : Sweep.collect (step (s.tokenRange f).2) (s.tokenRange f).2 (s.tokenRange f).1 () =
      .ok h') :
    h'.items.toList = h.items.toList.filter (fun token => s.start ≤ token.1 && token.1 < s.stop) := by
  have hscope : f.TokenRange f.lo f.hi :=
    ⟨Nat.le_refl _, hf.ordered, hf.hiBoundary, fun _ => Nat.le_refl _, fun _ => .inr rfl⟩
  have hin := (hscan.collect_ensures hscope hf.loBoundary).elim hfull
  obtain ⟨hr, hrb⟩ := tokenRange_fits hs hf ht
  have hin' := (hscan.collect_ensures hr hrb).elim hpart
  have hsb := ht ▸ hs.startBoundary
  have heb := ht ▸ hs.stopBoundary
  have hstart := ht ▸ hs.startCut
  have hend := ht ▸ hs.stopCut
  simp only [Scene.tokenRange] at hpart hin'
  rcases Nat.lt_or_ge (max s.start f.lo) (min s.stop f.hi) with hlt | hge
  · rw [Nat.max_eq_left (Nat.le_of_lt hlt)] at hpart
    -- the tokens behind the start of the section
    obtain ⟨h₁, hc₁, hi₁⟩ : ∃ h₁, Sweep.collect (step f.hi) f.hi (max s.start f.lo) () = .ok h₁ ∧
        h₁.items.toList = h.items.toList.filter (fun token => s.start ≤ token.1) := by
      rcases Nat.le_total s.start f.lo with hle | hle
      · rw [Nat.max_eq_right hle]
        refine ⟨h, hfull, (List.filter_eq_self.mpr fun token ht => ?_).symm⟩
        have := (hin token (by simpa using ht)).1
        simp only [decide_eq_true_eq]
        omega
      · rw [Nat.max_eq_left hle]
        have hcut : f.CutRange s.start f.hi :=
          ⟨hle, by omega, Nat.le_refl _, hsb, hf.hiBoundary, hstart, .inr rfl⟩
        obtain ⟨-, h₂, -, hc₂, -, hi₂⟩ :=
          hscan.collect_split hcuts hcut (Nat.le_refl _) hle hf.loBoundary hfull
        exact ⟨h₂, hc₂, hi₂⟩
    -- and of these the ones before its end
    have hi' : h'.items.toList = h₁.items.toList.filter (fun token => token.1 < s.stop) := by
      rcases Nat.le_total f.hi s.stop with hle | hle
      · rw [Nat.min_eq_right hle] at hpart
        obtain rfl : h' = h₁ := Except.ok.inj (hpart.symm.trans hc₁)
        refine (List.filter_eq_self.mpr fun token ht => ?_).symm
        rw [hi₁] at ht
        have := (hin token (by simpa using (List.mem_filter.mp ht).1)).2.1
        simp only [decide_eq_true_eq]
        omega
      · rw [Nat.min_eq_left hle] at hpart
        have hcut : f.CutRange s.stop f.hi :=
          ⟨by omega, hle, Nat.le_refl _, heb, hf.hiBoundary, hend, .inr rfl⟩
        obtain ⟨h₃, -, hc₃, -, hi₃, -⟩ := hscan.collect_split hcuts hcut (Nat.le_max_right _ _)
          (by omega) (Text.isBoundary_max hsb hf.loBoundary) hc₁
        obtain rfl : h' = h₃ := Except.ok.inj (hpart.symm.trans hc₃)
        exact hi₃
    rw [hi', hi₁, List.filter_filter]
    congr 1
    funext token
    rw [Bool.and_comm]
  · rw [Nat.max_eq_right hge] at hin'
    rw [List.filter_eq_nil_iff.mpr, List.eq_nil_iff_forall_not_mem]
    · intro token ht
      have := hin' token (by simpa using ht)
      omega
    · intro token ht hcond
      have h1 := hin token (by simpa using ht)
      simp only [Bool.and_eq_true, decide_eq_true_eq] at hcond
      omega

end Frame

namespace Pass

variable {f : Frame} {s : Scene} {c c' : Buffer}
variable {step : Nat → Nat → Unit → Checked (Sweep.Move Unit (Nat × Nat))}

/-- Painting the tokens of a section looks like painting those of the whole document.

**Proof sketch.** The tokens that start outside the section do not reach into it, because they keep
to their lines. -/
theorem paintTokens_sameView (hscan : f.Scans step) (hcuts : f.Cuts step) (hf : f.WellFormed)
    (hs : s.WellFormed) (ht : s.text = f.text) (hview : s.SameView c c') (style : Style) :
    Alike (paintTokens s f step style c) (paintTokens s.whole f step style c') s.SameView := by
  have hrange : s.whole.tokenRange f = (f.lo, f.hi) := by
    have h1 := hf.hi_le
    have h2 := hf.ordered
    simp only [Scene.tokenRange, Scene.whole, Scene.document, Prod.mk.injEq, ht]
    omega
  intro d d' hd hd'
  unfold paintTokens at hd hd'
  rw [hrange] at hd'
  dsimp only at hd hd'
  obtain ⟨h, hh, hd⟩ := bind_eq_ok.mp hd
  obtain ⟨h', hh', hd'⟩ := bind_eq_ok.mp hd'
  cases hd
  cases hd'
  have hscope : f.TokenRange f.lo f.hi :=
    ⟨Nat.le_refl _, hf.ordered, hf.hiBoundary, fun _ => Nat.le_refl _, fun _ => .inr rfl⟩
  have hin := (hscan.collect_ensures hscope hf.loBoundary).elim hh'
  have hitems := hscan.tokens_in_section hcuts hf hs ht hh' hh
  rw [← Array.foldl_toList, ← Array.foldl_toList, hitems]
  refine hview.tokens hs.partOf_whole (fun token htoken hout i h1 h2 hi => ?_) style
  obtain ⟨-, -, hline⟩ := hin token (by simpa using htoken)
  simp only [Bool.and_eq_false_iff, decide_eq_false_iff_not] at hout
  rcases hout with hout | hout
  · have := Text.LineCut.le_of_noNewline (ht ▸ hs.startCut) hline.noNewline hline.stop_le
      (Nat.lt_of_not_le hout)
    omega
  · omega

end Pass

end LexPaint
