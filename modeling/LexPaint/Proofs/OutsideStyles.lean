import LexPaint.Proofs.HeredocTwins
import LexPaint.Proofs.LocalPasses
import LexPaint.Proofs.MarkupTwins

set_option relaxedAutoImplicit false
set_option autoImplicit false

/-!
# The styles outside an edit

If the comparisons after an edit find no change, then full passes over the document before the edit
and after it show the same styles outside the edited section. So it is enough to repaint the section.
This holds for every language without embedded sections, and for PHP as long as a document is nothing
but code.

## Main definitions

* `Pass.Unchanged`: two full passes between which the comparisons find no change.
* `Pass.SameOutside`: two full passes that show the same styles outside an edit.
* `Profile.KeepsOutside`: profiles for which the former implies the latter.
* `Primitive.FullRun`: a full pass of a program over a document.

## Main results

* `Profile.keepsOutside_of_plain`: profiles that map literals and then paint tokens.
* `Profile.keepsOutside_xml`, `Profile.keepsOutside_php`: markup, and PHP without marks.
-/

namespace LexPaint

/-! ### What the comparisons see -/

/-- What was mapped, set after set. -/
def Layout.found (l : Layout) : List (Array Interval) :=
  l.sets.map fun entry => entry.2.intervals

/-- Full passes over a document after an edit and before it, between which the comparisons find no
change: all sets keep their pieces outside the section, and the heredocs keep their lengths. -/
structure Pass.Unchanged (w : EditWindow) (q q₀ : Pass) : Prop where
  sets : List.Forall₂ (fun found found₀ => w.Keeps found.toList found₀.toList)
    q.layout.found q₀.layout.found
  nested : w.Keeps q.nested.intervals.toList q₀.nested.intervals.toList
  lengths : q.layout.composite.heredocs.intervals.toList.map (fun iv => iv.stop - iv.start) =
    q₀.layout.composite.heredocs.intervals.toList.map fun iv => iv.stop - iv.start

/-- Two full passes have mapped the same pieces in a range, set after set. -/
structure Pass.Alike (q q₀ : Pass) (b b₀ n : Nat) : Prop where
  sets : List.Forall₂ (fun found found₀ => SamePieces found.toList found₀.toList b b₀ n)
    q.layout.found q₀.layout.found
  nested : SamePieces q.nested.intervals.toList q₀.nested.intervals.toList b b₀ n

/-- The two passes show the same styles outside the edited section. -/
structure Pass.SameOutside (w : EditWindow) (n : Nat) (q q₀ : Pass) : Prop where
  before : q.canvas.TwinStyles q₀.canvas 0 0 w.start
  after : q.canvas.TwinStyles q₀.canvas w.stop w.oldStop n

namespace Layout

variable {l l₀ : Layout} {Q : IntervalKind → Bool} {pos pos₀ : Nat}

/-- Layouts that are alike have found the same. -/
lemma Like.found_eq (h : l.Like l₀) : l.found = l₀.found := by
  simp only [found, sets, List.map_cons, List.map_nil]
  rw [h.quotes.intervals, h.lineComments.intervals, h.blockComments.intervals, h.heredocs.intervals,
    h.operators.intervals, h.tags.intervals, h.attributeValues.intervals, h.embedded.intervals]

/-- An offset is covered if one of the sets covers it. -/
lemma covers_eq_any : l.covers Q pos =
    l.found.any fun found => LexPaint.covers found.toList Q pos := by
  unfold covers found allIntervals LexPaint.covers
  rw [List.any_flatMap, List.any_map]
  rfl

/-- Layouts cover an offset alike if their sets do. -/
lemma covers_eq_of_found {R : Array Interval → Array Interval → Prop}
    (h : List.Forall₂ R l.found l₀.found)
    (hR : ∀ found found₀, R found found₀ →
      LexPaint.covers found.toList Q pos = LexPaint.covers found₀.toList Q pos₀) :
    l.covers Q pos = l₀.covers Q pos₀ := by
  rw [covers_eq_any, covers_eq_any]
  generalize l.found = found, l₀.found = found₀ at h
  induction h with
  | nil => rfl
  | cons hab _ ih => rw [List.any_cons, List.any_cons, hR _ _ hab, ih]

end Layout

namespace Pass

variable {w : EditWindow} {q q₀ : Pass} {b b₀ n : Nat}

namespace Alike

/-- Two passes have mapped the same in a range whichever comes first. -/
lemma symm (h : q.Alike q₀ b b₀ n) : q₀.Alike q b₀ b n :=
  ⟨h.sets.flip.imp fun _ _ hsame => hsame.symm, h.nested.symm⟩

/-- The layouts cover the range in the same way. -/
lemma twin (h : q.Alike q₀ b b₀ n) : q.layout.Twin q₀.layout b b₀ n :=
  fun _ _ hk => Layout.covers_eq_of_found h.sets fun _ _ hsame => hsame.covers_eq hk

/-- The block comments have the same pieces in the range. -/
lemma blockComments (h : q.Alike q₀ b b₀ n) : SamePieces q.layout.blockComments.intervals.toList
    q₀.layout.blockComments.intervals.toList b b₀ n := by
  have := h.sets
  simp only [Layout.found, Layout.sets, List.map_cons, List.forall₂_cons] at this
  exact this.2.2.1

/-- The tags have the same pieces in the range. -/
lemma tags (h : q.Alike q₀ b b₀ n) :
    SamePieces q.layout.tags.intervals.toList q₀.layout.tags.intervals.toList b b₀ n := by
  have := h.sets
  simp only [Layout.found, Layout.sets, List.map_cons, List.forall₂_cons] at this
  exact this.2.2.2.2.2.1

/-- The values have the same pieces in the range. -/
lemma attributeValues (h : q.Alike q₀ b b₀ n) : SamePieces q.layout.attributeValues.intervals.toList
    q₀.layout.attributeValues.intervals.toList b b₀ n := by
  have := h.sets
  simp only [Layout.found, Layout.sets, List.map_cons, List.forall₂_cons] at this
  exact this.2.2.2.2.2.2.1

/-- The embedded sections have the same pieces in the range. -/
lemma embedded (h : q.Alike q₀ b b₀ n) :
    SamePieces q.layout.embedded.intervals.toList q₀.layout.embedded.intervals.toList b b₀ n := by
  have := h.sets
  simp only [Layout.found, Layout.sets, List.map_cons, List.forall₂_cons] at this
  exact this.2.2.2.2.2.2.2.1

end Alike

namespace Unchanged

/-- Nothing has changed before the section. -/
lemma alike_before (h : q.Unchanged w q₀) : q.Alike q₀ 0 0 w.start :=
  ⟨h.sets.imp fun _ _ hkeeps => hkeeps.pieces_before, h.nested.pieces_before⟩

/-- Nothing has changed behind the section. -/
lemma alike_after (h : q.Unchanged w q₀) (n : Nat) : q.Alike q₀ w.stop w.oldStop n :=
  ⟨h.sets.imp fun _ _ hkeeps => hkeeps.pieces_after n, h.nested.pieces_after n⟩

/-- The heredocs keep their pieces outside the section. -/
lemma heredocs (h : q.Unchanged w q₀) : w.Keeps q.layout.composite.heredocs.intervals.toList
    q₀.layout.composite.heredocs.intervals.toList := by
  have := h.sets
  simp only [Layout.found, Layout.sets, List.map_cons, List.forall₂_cons] at this
  exact this.2.2.2.1

end Unchanged

end Pass

/-! ### Full passes of programs -/

namespace Primitive

/-- A full pass of a program over a document, or over a scope that spans it. -/
structure FullRun (program : List Primitive) (opened : Bool) (f : Frame) (p q : Pass) : Prop where
  wellFormed : f.WellFormed
  spans : f.Spans
  plain : f.dialect.isPlain = true
  sound : soundAll opened program = true
  fits : p.Fits f opened
  blank : p.Blank f
  plainCanvas : ∀ i, i < f.text.size → p.canvas.styles[i]? = some .plain
  run : runAll (.document f.text) program f p = .ok q

variable {program : List Primitive} {opened : Bool} {f f₀ : Frame} {p p₀ q q₀ : Pass}

namespace FullRun

/-- A scope that spans the document is sealed at its end. -/
lemma isSealed (h : FullRun program opened f p q) : f.text.Sealed f.hi := by
  rw [h.spans.hi_eq]
  exact f.text.sealed_size

/-- What a plain program has mapped is what its first stage maps. -/
lemma exists_mapped (h : FullRun program opened f p q) (hplain : isPlain f.dialect program = true) :
    ∃ opened' p', soundAll opened' (mapping .start program).2 = true ∧
      p'.Mapped f p.canvas (mapping .start program).1 ∧ q.layout = p'.layout ∧
      runAll (.document f.text) (mapping .start program).2 f p' = .ok q :=
  runAll_blank h.wellFormed h.plain h.sound (fun _ => h.isSealed) hplain h.fits h.blank h.run

/-- A plain program shows the same styles in a part that two documents share, if what it has mapped
covers the part in the same way. -/
lemma twinStyles_of_inEither {b b₀ n : Nat} (h : FullRun program opened f p q)
    (h₀ : FullRun program opened f₀ p₀ q₀) (hd : f.dialect = f₀.dialect)
    (hplain : isPlain f.dialect program = true) (ht : f.text.Twin f₀.text b b₀ n)
    (hl : q.layout.Twin q₀.layout b b₀ n)
    (heither : ∀ k, k < n → (q.layout.composite.inEither (b + k)).isSome =
      (q₀.layout.composite.inEither (b₀ + k)).isSome) :
    q.canvas.TwinStyles q₀.canvas b b₀ n := by
  refine runAll_blank_twin h.wellFormed h₀.wellFormed hd h.plain h.sound
    (fun _ => ⟨h.isSealed, h₀.isSealed⟩) hplain h.fits h₀.fits h.blank h₀.blank h.run h₀.run
    (.of_spans ht h.spans h₀.spans) (fun k hk => ?_) hl heither
  have h1 := ht.le_size
  have h2 := ht.le_size₀
  rw [h.plainCanvas _ (by omega), h₀.plainCanvas _ (by omega)]

/-- The same without quote operators. -/
lemma twinStyles {b b₀ n : Nat} (h : FullRun program opened f p q)
    (h₀ : FullRun program opened f₀ p₀ q₀) (hd : f.dialect = f₀.dialect)
    (hplain : isPlain f.dialect program = true)
    (hoperators : (mapping .start program).1.operators = false)
    (ht : f.text.Twin f₀.text b b₀ n) (hl : q.layout.Twin q₀.layout b b₀ n) :
    q.canvas.TwinStyles q₀.canvas b b₀ n := by
  obtain ⟨_, p', -, hmapped, hlayout, -⟩ := h.exists_mapped hplain
  obtain ⟨_, p₀', -, hmapped₀, hlayout₀, -⟩ := h₀.exists_mapped (hd ▸ hplain)
  refine h.twinStyles_of_inEither h₀ hd hplain ht hl fun k hk => ?_
  rw [hlayout, hlayout₀] at hl ⊢
  rw [hmapped.settled.isSome_inEither (hmapped.noOperators (.inr hoperators)),
    hmapped₀.settled.isSome_inEither (hmapped₀.noOperators (.inr hoperators))]
  exact hl _ k hk

/-- A plain program whose heredocs are decided on the line of their opener shows the same styles
outside an edit, if the comparisons find no change.

**Proof sketch.** Before the section and behind it the layouts cover the same. What is left is the
question whether an offset lies in a heredoc or in a quote operator, which depends on where heredocs
start. -/
lemma sameOutside {w : EditWindow} {pos added removed : Nat} {r : HeredocRules}
    (h : FullRun program opened f p q) (h₀ : FullRun program opened f₀ p₀ q₀)
    (hd : f.dialect = f₀.dialect) (hplain : isPlain f.dialect program = true)
    (ho : f.dialect.OpensOnLine r) (hw : w.Around f.text f₀.text pos added removed)
    (hne : added ≠ removed) (hq : q.Unchanged w q₀) :
    q.SameOutside w (f.text.size - w.stop) q₀ := by
  -- painting tokens leaves the layouts as they are, so they are those of the mapped literals
  obtain ⟨_, p', -, hmapped, hlayout, -⟩ := h.exists_mapped hplain
  obtain ⟨_, p₀', -, hmapped₀, hlayout₀, -⟩ := h₀.exists_mapped (hd ▸ hplain)
  have hkeeps := hq.heredocs
  have hlengths := hq.lengths
  have hbefore := hq.alike_before.twin
  have hafter := (hq.alike_after (f.text.size - w.stop)).twin
  constructor
  · refine h.twinStyles_of_inEither h₀ hd hplain hw.twin_before hbefore fun k hk => ?_
    rw [hlayout, hlayout₀] at hkeeps hbefore ⊢
    rw [Nat.zero_add]
    exact EditWindow.inEither_before hmapped.settled hmapped₀.settled hmapped.operators
      hmapped₀.operators hkeeps hbefore hk
  · refine h.twinStyles_of_inEither h₀ hd hplain hw.twin_after hafter fun k hk => ?_
    rw [hlayout, hlayout₀] at hlengths hkeeps hafter ⊢
    exact hw.inEither_after hne h.wellFormed h₀.wellFormed h.spans h₀.spans hd ho hmapped.heredocs
      hmapped₀.heredocs hmapped.settled hmapped₀.settled hmapped.operators hmapped₀.operators
      hlengths hkeeps hafter hk

end FullRun

end Primitive

/-! ### Profiles -/

/-- The start of the full pass of a new painter. -/
def Pass.initial (t : Text) : Pass :=
  ⟨(Buffer.new t).clear 0 t.size, .empty, .empty, .unconditional, none⟩

/-- A canvas that was cleared is plain. -/
lemma Buffer.styles_clear_new {t : Text} {i : Nat} (hi : i < t.size) :
    ((Buffer.new t).clear 0 t.size).styles[i]? = some .plain := by
  have hsize := (Buffer.new t).size_styles
  have htext : (Buffer.new t).text.size = t.size := rfl
  rw [clear, styles_paint, if_pos (by omega)]

namespace Profile

variable {profile : Profile} {t t₀ : Text} {q : Pass}

/-- The full pass of a new painter over a text. -/
def freshPass (profile : Profile) (t : Text) : Checked Pass :=
  profile.runPass (Buffer.new t) 0 t.size false .empty .empty

/-- Full passes over two texts show the same styles outside any edit that makes one text the other,
if the comparisons find no change. -/
def KeepsOutside (profile : Profile) (t t₀ : Text) : Prop :=
  ∀ (w : EditWindow) (pos added removed : Nat) (q q₀ : Pass), w.Around t t₀ pos added removed →
    added ≠ removed → profile.freshPass t = .ok q → profile.freshPass t₀ = .ok q₀ →
    q.Unchanged w q₀ → q.SameOutside w (t.size - w.stop) q₀

/-- The full pass of a new painter runs its program over the document. -/
lemma freshPass_eq (profile : Profile) (t : Text) : profile.freshPass t =
    Primitive.runAll (.document t) profile.program (.document t profile.dialect) (.initial t) := by
  have hscene : (⟨(Buffer.new t).text, 0, 0 + t.size, false⟩ : Scene) = .document t := by
    rw [Nat.zero_add]
    rfl
  unfold freshPass runPass
  dsimp only
  rw [hscene]
  rfl

/-- A pass leaves the text of its document alone. -/
lemma text_freshPass (h : profile.freshPass t = .ok q) : q.canvas.text = t := by
  have htext := text_runPass h
  exact htext

/-- The full pass of a new painter is a full pass of the program. -/
lemma fullRun (hprofile : profile.Sound) (ht : t.Valid) (h : profile.freshPass t = .ok q) :
    Primitive.FullRun profile.program true (.document t profile.dialect) (.initial t) q where
  wellFormed := Frame.wellFormed_document ht _
  spans := ⟨rfl, rfl, rfl⟩
  plain := hprofile.1
  sound := hprofile.2
  fits := ⟨rfl, Layout.fits_empty⟩
  blank := ⟨rfl, rfl, rfl, rfl⟩
  plainCanvas := fun _ hi => Buffer.styles_clear_new hi
  run := (profile.freshPass_eq t).symm.trans h

/-- A profile that maps literals and then paints tokens keeps the styles outside of edits. -/
theorem keepsOutside_of_plain (hprofile : profile.Sound)
    (hplain : Primitive.isPlain profile.dialect profile.program = true)
    (hoperators : (Primitive.mapping .start profile.program).1.operators = false ∨
      ∃ r, profile.dialect.OpensOnLine r) : profile.KeepsOutside t t₀ := by
  intro w pos added removed q q₀ hw hne h h₀ hq
  have hrun := fullRun hprofile hw.edited.valid h
  have hrun₀ := fullRun hprofile hw.edited.valid₀ h₀
  rcases hoperators with hnone | ⟨r, ho⟩
  · exact ⟨hrun.twinStyles hrun₀ rfl hplain hnone hw.twin_before hq.alike_before.twin,
      hrun.twinStyles hrun₀ rfl hplain hnone hw.twin_after (hq.alike_after _).twin⟩
  · exact hrun.sameOutside hrun₀ rfl hplain ho hw hne hq

/-- The full pass over an XML document paints its comments on a plain canvas, and then its tags.

**Proof sketch.** The program has two primitives. The first one maps comments on a plain canvas, the
second one tags. -/
lemma freshPass_xml (ht : t.Valid) (h : xml.freshPass t = .ok q) :
    ∃ base : Buffer, q.Tagged (.document t .permissive) base ∧ ∀ i, i < t.size →
      base.styles[i]? = if q.layout.blockComments.Covers i then some .comment else some .plain := by
  have hprofile : xml.Sound := sound_of_mem_builtIn (by simp [builtIn])
  have hrun := fullRun hprofile ht h
  have hprogram : Primitive.runAll (.document t) [Primitive.markupComments, .tags]
      (.document t .permissive) (.initial t) = .ok q := hrun.run
  rw [Primitive.runAll_cons rfl] at hprogram
  obtain ⟨p₁, hcomments, hprogram⟩ := bind_eq_ok.mp hprogram
  have hcontinues := Primitive.run_continues _ _ _ _ hcomments
  have hquiet : p₁.repair = none := hcontinues.repair rfl
  have htext : p₁.canvas.text = t := hcontinues.painted.text_eq
  rw [Primitive.runAll_singleton hquiet] at hprogram
  -- comments leave all other sets empty, and tags leave the comments as they are
  have hembedded : p₁.layout.embedded = .empty :=
    Primitive.embedded_of_run hcomments rfl
  have htags : p₁.layout.tags = .empty :=
    Primitive.tags_of_run hcomments rfl
  have hvalues : p₁.layout.attributeValues = .empty :=
    Primitive.attributeValues_of_run hcomments rfl
  have hblocks : q.layout.blockComments = p₁.layout.blockComments :=
    Primitive.blockComments_of_run hprogram rfl
  simp only [Primitive.markupComments, Primitive.run] at hcomments hprogram
  refine ⟨p₁.canvas, Pass.mapTags_tagged hrun.wellFormed hrun.spans htext ?_ ?_ ?_ hprogram,
    fun i hi => ?_⟩
  · exact .of_empty (by rw [hembedded]; rfl)
  · rw [htags]
    rfl
  · rw [hvalues]
    rfl
  · rw [hblocks, ← hrun.plainCanvas i hi]
    exact Pass.styles_mapBlockComments hrun.wellFormed hrun.fits (by decide) (by decide) rfl hcomments hi

/-- XML keeps the styles outside of edits.

**Proof sketch.** Before the section and behind it, what shows under the tags is decided by the
comments, and the tags show the same over it. -/
theorem keepsOutside_xml : xml.KeepsOutside t t₀ := by
  intro w pos added removed q q₀ hw _ h h₀ hq
  obtain ⟨base, htagged, hbase⟩ := freshPass_xml hw.edited.valid h
  obtain ⟨base₀, htagged₀, hbase₀⟩ := freshPass_xml hw.edited.valid₀ h₀
  have htwin {b b₀ n : Nat} (ht : t.Twin t₀ b b₀ n) (halike : q.Alike q₀ b b₀ n) :
      q.canvas.TwinStyles q₀.canvas b b₀ n := by
    refine htagged.twinStyles htagged₀ ht (fun k hk => ?_) halike.tags halike.attributeValues
      halike.embedded
    have h1 := ht.le_size
    have h2 := ht.le_size₀
    rw [hbase _ (by omega), hbase₀ _ (by omega), if_congr (halike.blockComments.covers_iff hk) rfl rfl]
  exact ⟨htwin hw.twin_before hq.alike_before, htwin hw.twin_after (hq.alike_after _)⟩

/-- The full pass over a PHP document without marks hands all of it to the profile for code.

**Proof sketch.** Without a mark the program embeds the whole document as code. The scope of the code
spans the document, and all that it maps is recorded as nested. -/
lemma freshPass_php (ht : t.Valid) (hnone : t.find (mark "<?") 0 t.size = none)
    (h : php.freshPass t = .ok q) :
    ∃ g inner, g.text = t ∧ g.dialect = .phpCode ∧
      Primitive.FullRun phpCode.program true g (.initial t) inner ∧ q.canvas = inner.canvas ∧
      ∀ iv, iv ∈ q.nested.intervals ↔ iv ∈ inner.layout.allIntervals := by
  have hcode : phpCode.Sound := sound_of_mem_builtIn (by simp [builtIn])
  rw [freshPass_eq] at h
  have hprogram : php.program =
      [.ifContains (mark "<?") (Primitive.markup true) [.embed .phpCode]] := rfl
  rw [hprogram, Primitive.runAll_cons rfl] at h
  obtain ⟨p₁, hrun, h⟩ := bind_eq_ok.mp h
  simp only [Primitive.runAll] at h
  cases h
  simp only [Primitive.run] at hrun
  rw [if_neg (by
    show ¬ (t.find (mark "<?") 0 t.size).isSome = true
    rw [hnone]
    exact Bool.false_ne_true), Primitive.runAll_cons rfl] at hrun
  obtain ⟨p₂, hembed, hrun⟩ := bind_eq_ok.mp hrun
  simp only [Primitive.runAll] at hrun
  cases hrun
  simp only [Primitive.embed, Primitive.run] at hembed
  obtain ⟨g, hg, hembed⟩ := bind_eq_ok.mp hembed
  obtain ⟨inner, hinner, hembed⟩ := bind_eq_ok.mp hembed
  obtain ⟨hgf, htext, hlo, hhi, hdialect, -⟩ := (Frame.enter_ensures
    (Frame.wellFormed_document ht .permissive) (Text.isBoundary_zero t) (Text.isBoundary_size t)
    (Nat.zero_le _) .phpCode).elim hg
  cases hembed
  have htext : g.text = t := htext
  -- the code is the whole document
  have hspans : g.Spans := by
    refine ⟨hlo, hhi.trans (by rw [htext]), ?_⟩
    rw [hgf.scope_eq, hlo, hhi, htext]
    exact Frame.between_whole t
  have hinner : Primitive.runAll (.document t) phpCode.program g (.initial t) = .ok inner := hinner
  have hnested := Primitive.runAll_nested (by decide) hinner
  subst htext
  refine ⟨g, inner, rfl, hdialect, ?_, rfl, fun iv => ?_⟩
  · exact
      { wellFormed := hgf
        spans := hspans
        plain := hdialect ▸ hcode.1
        sound := hcode.2
        fits := ⟨rfl, Layout.fits_empty⟩
        blank := ⟨rfl, rfl, rfl, rfl⟩
        plainCanvas := fun _ hi => Buffer.styles_clear_new hi
        run := hinner }
  · have hadd : inner.layout.allIntervals.foldl .add inner.nested =
        inner.nested.addAll inner.layout.allIntervals.toArray := by
      simp [IntervalSet.addAll]
    show iv ∈ (inner.layout.allIntervals.foldl .add inner.nested).intervals ↔ _
    rw [hadd, IntervalSet.mem_addAll, hnested]
    simp [Pass.initial, IntervalSet.empty]

/-- PHP keeps the styles outside of edits of documents without marks.

**Proof sketch.** The code is a plain program, and its heredocs count without a look at quote
operators. Its layout is not committed, but its intervals are those nested in the document, which are
compared. -/
theorem keepsOutside_php (hnone : t.find (mark "<?") 0 t.size = none)
    (hnone₀ : t₀.find (mark "<?") 0 t₀.size = none) : php.KeepsOutside t t₀ := by
  intro w pos added removed q q₀ hw hne h h₀ hq
  obtain ⟨g, inner, htext, hdialect, hrun, hcanvas, hmem⟩ :=
    freshPass_php hw.edited.valid hnone h
  obtain ⟨g₀, inner₀, htext₀, hdialect₀, hrun₀, hcanvas₀, hmem₀⟩ :=
    freshPass_php hw.edited.valid₀ hnone₀ h₀
  -- what the code has mapped is what the document has mapped in embedded sections
  have hcovers {nested : IntervalSet} {l : Layout}
      (hmem : ∀ iv, iv ∈ nested.intervals ↔ iv ∈ l.allIntervals) (Q : IntervalKind → Bool) (i : Nat) :
      l.covers Q i = covers nested.intervals.toList Q i := by
    rw [Layout.covers, Bool.eq_iff_iff, covers_iff, covers_iff]
    simp only [Array.mem_toList_iff, hmem]
  subst htext htext₀
  have hd : g.dialect = g₀.dialect := hdialect.trans hdialect₀.symm
  have hplain : Primitive.isPlain g.dialect phpCode.program = true := by
    rw [hdialect]
    decide +kernel
  constructor
  all_goals rw [hcanvas, hcanvas₀]
  · refine hrun.twinStyles hrun₀ hd hplain (by decide +kernel) hw.twin_before fun Q k hk => ?_
    rw [hcovers hmem, hcovers hmem₀, Nat.zero_add]
    exact hq.nested.covers_before hk
  · refine hrun.twinStyles hrun₀ hd hplain (by decide +kernel) hw.twin_after fun Q k _ => ?_
    rw [hcovers hmem, hcovers hmem₀]
    exact hq.nested.covers_after

end Profile

end LexPaint
