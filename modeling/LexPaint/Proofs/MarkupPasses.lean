import LexPaint.Proofs.SectionTwins

set_option relaxedAutoImplicit false
set_option autoImplicit false

/-!
# Full passes over markup with embedded languages

A full pass over an HTML document hands the PHP code over, paints the comments, hands scripts and style
sheets over, and paints the tags at last. If no two of the sections that it records overlap, all this can
be read off from what the pass has recorded: two documents that share a part, and in which a full pass
has recorded the same in this part, show the same styles there. So HTML keeps the styles outside of
edits. PHP does so as long as a document contains a mark.

## Main definitions

* `Profile.SectionsApart`: documents in which no two embedded sections overlap.
* `Pass.Hands`: a step of a full pass that hands sections over.
* `MarkupPass`: a full pass over such a document, step by step.

## Main results

* `Profile.exists_markupPass`: every full pass over such a document is one.
* `MarkupPass.twinStyles`: two of them show the same styles in a part that their documents share.
* `Profile.keepsOutside_html`, `Profile.keepsOutside_php_markup`: HTML, and PHP with marks.
-/

namespace LexPaint

/-- No two of the embedded sections that a new painter maps in a document overlap. -/
def Profile.SectionsApart (profile : Profile) (t : Text) : Prop :=
  ∀ q, profile.freshPass t = .ok q → q.layout.embedded.intervals.toList.Pairwise Interval.Apart

instance (profile : Profile) (t : Text) : Decidable (profile.SectionsApart t) :=
  match h : profile.freshPass t with
  | .error _ => isTrue fun _ hq => nomatch h.symm.trans hq
  | .ok q =>
    decidable_of_iff (q.layout.embedded.intervals.toList.Pairwise Interval.Apart)
      ⟨fun hapart _ hq' => Except.ok.inj (h.symm.trans hq') ▸ hapart, fun hall => hall q h⟩

/-- A region that is opened by one of some marks is opened by one of more marks. -/
lemma Region.Marked.mono {t : Text} {starts starts' : List Mark} {endTag : Mark} {r : Region}
    (h : r.Marked t starts endTag) (hsub : starts ⊆ starts') : r.Marked t starts' endTag :=
  ⟨h.opens.imp fun _ hm => ⟨hsub hm.1, hm.2⟩, h.tagStart_eq, h.tagStop_eq, h.closes⟩

/-! ### A full pass, primitive by primitive -/

/-- A full pass over a document that has not asked for a repair, between two primitives. -/
structure Pass.Underway (t : Text) (opened : Bool) (p : Pass) : Prop where
  fits : p.Fits (.document t .permissive) opened
  starts : (Frame.document t .permissive).EmbeddedStarts p.layout.embedded
  quiet : p.repair = none

/-- The sections of a pass underway lie in the document and start where sections do. -/
lemma Pass.Underway.bordered {t : Text} {opened : Bool} {p : Pass} (h : p.Underway t opened) :
    p.Bordered (.document t .permissive) opened :=
  ⟨h.fits.text, h.fits.layout.embedded, h.starts⟩

/-- What is known of a pass underway is known without the promise about its sections. -/
lemma Pass.Underway.weaken {t : Text} {opened : Bool} {p : Pass} (h : p.Underway t opened) :
    p.Underway t false :=
  ⟨⟨h.fits.text, h.fits.layout.weaken (by simp)⟩, h.starts, h.quiet⟩

/-- A step of a full pass that hands sections over: it records them and leaves all other sets alone. -/
structure Pass.Hands (t : Text) (profile : Profile) (calls : List Handover) (p q : Pass) : Prop where
  embeds : p.Embeds t profile calls q
  recorded : q.layout.embedded.intervals.toList.Perm
    (p.layout.embedded.intervals.toList ++ Handover.recorded calls)
  blockComments : q.layout.blockComments = p.layout.blockComments
  tags : q.layout.tags = p.layout.tags
  attributeValues : q.layout.attributeValues = p.layout.attributeValues

namespace Pass.Hands

variable {t : Text} {profile : Profile} {calls calls' : List Handover} {p q r : Pass}

/-- If no two sections overlap behind a step, none did in front of it. -/
lemma apart (h : p.Hands t profile calls q)
    (hapart : q.layout.embedded.intervals.toList.Pairwise Interval.Apart) :
    p.layout.embedded.intervals.toList.Pairwise Interval.Apart :=
  (Interval.pairwise_apart_of_perm h.recorded hapart).1

/-- Two steps that hand sections over to the same profile.

**Proof sketch.** The sections recorded by both steps are those of the first and those of the second,
and no two of them overlap. -/
lemma append (h : p.Hands t profile calls q) (h' : q.Hands t profile calls' r)
    (hapart : r.layout.embedded.intervals.toList.Pairwise Interval.Apart) :
    p.Hands t profile (calls ++ calls') r := by
  have hrecorded : r.layout.embedded.intervals.toList.Perm
      (p.layout.embedded.intervals.toList ++ Handover.recorded (calls ++ calls')) := by
    rw [Handover.recorded_append, ← List.append_assoc]
    exact h'.recorded.trans (h.recorded.append_right _)
  have hall := Interval.pairwise_apart_of_filter (Interval.pairwise_apart_of_perm hrecorded hapart).2
  exact ⟨h.embeds.append h'.embeds (List.pairwise_append.mp (List.pairwise_map.mp hall)).2.2, hrecorded,
    h'.blockComments.trans h.blockComments, h'.tags.trans h.tags,
    h'.attributeValues.trans h.attributeValues⟩

end Pass.Hands

namespace Primitive

variable {t : Text} {opened : Bool} {p q : Pass} {primitive : Primitive} {rest : List Primitive}

/-- The first primitive of what is left of a full pass.

**Proof sketch.** A primitive keeps the canvas and the layout in shape by `run_ensures`, and its
sections start where sections do by `run_delegates`. A pass over a whole document asks for no repair. -/
lemma exists_of_runAll_cons (ht : t.Valid) (hp : p.Underway t opened)
    (hsound : soundAll opened (primitive :: rest) = true)
    (hmarked : embedsMarkedAll (primitive :: rest))
    (h : runAll (.document t) (primitive :: rest) (.document t .permissive) p = .ok q) :
    sound opened primitive = true ∧ embedsMarked primitive ∧
      soundAll (opened && keepsOpened primitive) rest = true ∧ embedsMarkedAll rest ∧
      ∃ p', run (.document t) primitive (.document t .permissive) p = .ok p' ∧
        p'.Underway t (opened && keepsOpened primitive) ∧
        runAll (.document t) rest (.document t .permissive) p' = .ok q := by
  have hs : (Scene.document t).WellFormed := Scene.wellFormed_whole ht false
  rw [soundAll, Bool.and_eq_true] at hsound
  rw [runAll_cons hp.quiet] at h
  obtain ⟨p', hrun, hrest⟩ := bind_eq_ok.mp h
  refine ⟨hsound.1, hmarked.1, hsound.2, hmarked.2, p', hrun, ⟨?_, ?_, ?_⟩, hrest⟩
  · exact (run_ensures hs primitive opened _ p hsound.1 (Frame.wellFormed_document ht _) rfl rfl
      (fun _ => t.sealed_size) hp.fits).elim hrun
  · exact ((run_delegates hs primitive opened p hsound.1 hmarked.1
      hp.bordered hp.quiet).result p' hrun).starts
  · exact ((run_continues primitive _ p p' hrun).repair rfl).trans hp.quiet

/-- What a primitive that embeds does in a full pass. -/
lemma hands_of_inner (ht : t.Valid) {startTag endTag : String} {element : Bool} {profile : Profile}
    (hp : p.Underway t opened) (hsound : sound opened (inner startTag endTag element profile) = true)
    (hmarked : embedsMarked (inner startTag endTag element profile))
    (h : run (.document t) (inner startTag endTag element profile) (.document t .permissive) p = .ok q)
    (hapart : q.layout.embedded.intervals.toList.Pairwise Interval.Apart) :
    ∃ calls, p.Hands t profile calls q ∧
      ∀ call ∈ calls, call.region.interval.kind = .embedded profile.name ∧
        (element = true → call.region.IsContent) ∧
          (element = false → call.region.Marked t [mark startTag] (mark endTag)) := by
  obtain ⟨calls, hembeds, hrecorded, hparts⟩ :=
    run_embeds ht hsound hmarked hp.bordered hp.quiet h hapart
  exact ⟨calls, ⟨hembeds, hrecorded,
    blockComments_of_run h rfl, tags_of_run h rfl, attributeValues_of_run h rfl⟩, hparts⟩

end Primitive

/-! ### Full passes over HTML documents -/

/-- A full pass over an HTML document in which no two sections overlap, step by step. -/
structure MarkupPass (t : Text) (q : Pass) where
  valid : t.Valid
  /-- The sections with PHP code. -/
  code : List Handover
  /-- The scripts. -/
  scripts : List Handover
  /-- The style sheets. -/
  sheets : List Handover
  /-- The pass behind the PHP code. -/
  coded : Pass
  /-- The pass behind the comments. -/
  commented : Pass
  /-- The pass behind the scripts. -/
  scripted : Pass
  /-- The pass behind the style sheets. -/
  styled : Pass
  code_handed : (Pass.initial t).Hands t .phpCode code coded
  comments_run :
    Primitive.run (.document t) .markupComments (.document t .permissive) coded = .ok commented
  scripts_handed : commented.Hands t .javascript scripts scripted
  sheets_handed : scripted.Hands t .css sheets styled
  tags_run : Primitive.run (.document t) .tags (.document t .permissive) styled = .ok q
  coded_underway : coded.Underway t false
  styled_underway : styled.Underway t false
  apart : q.layout.embedded.intervals.toList.Pairwise Interval.Apart
  code_parts : ∀ call ∈ code, call.region.interval.kind = .embedded Profile.phpCode.name ∧
    call.region.Marked t [mark "<?php", mark "<?="] (mark "?>")
  scripts_parts : ∀ call ∈ scripts, call.region.interval.kind = .embedded Profile.javascript.name ∧
    call.region.IsContent
  sheets_parts : ∀ call ∈ sheets, call.region.interval.kind = .embedded Profile.css.name ∧
    call.region.IsContent

/-- Every full pass over an HTML document without overlapping sections goes through these steps.

**Proof sketch.** The program has six primitives. They are peeled off one after another, and each
that hands over gives a step. The sections do not overlap in the end, so they did not before. -/
theorem Profile.exists_markupPass {t : Text} {q : Pass} (ht : t.Valid)
    (h : html.freshPass t = .ok q)
    (hapart : q.layout.embedded.intervals.toList.Pairwise Interval.Apart) :
    Nonempty (MarkupPass t q) := by
  have hsound : Primitive.soundAll true html.program = true :=
    (sound_of_mem_builtIn (by simp [builtIn])).2
  have hmarked : Primitive.embedsMarkedAll html.program := embedsMarked_of_markup (by simp)
  have hprogram : html.program = [.inner "<?php" "?>" false .phpCode, .inner "<?=" "?>" false .phpCode,
    .markupComments, .inner "<script" "</script" true .javascript,
    .inner "<style" "</style" true .css, .tags] := rfl
  rw [hprogram] at hsound hmarked
  rw [freshPass_eq, hprogram] at h
  have hp₀ : (Pass.initial t).Underway t true :=
    ⟨⟨rfl, Layout.fits_empty⟩, by simp [Frame.EmbeddedStarts, Pass.initial, Layout.empty,
      IntervalSet.empty], rfl⟩
  obtain ⟨hsound₁, hmarked₁, hsound, hmarked, p₁, hrun₁, hp₁, h⟩ :=
    Primitive.exists_of_runAll_cons ht hp₀ hsound hmarked h
  obtain ⟨hsound₂, hmarked₂, hsound, hmarked, p₂, hrun₂, hp₂, h⟩ :=
    Primitive.exists_of_runAll_cons ht hp₁ hsound hmarked h
  obtain ⟨-, -, hsound, hmarked, p₃, hrun₃, hp₃, h⟩ :=
    Primitive.exists_of_runAll_cons ht hp₂ hsound hmarked h
  obtain ⟨hsound₄, hmarked₄, hsound, hmarked, p₄, hrun₄, hp₄, h⟩ :=
    Primitive.exists_of_runAll_cons ht hp₃ hsound hmarked h
  obtain ⟨hsound₅, hmarked₅, hsound, hmarked, p₅, hrun₅, hp₅, h⟩ :=
    Primitive.exists_of_runAll_cons ht hp₄ hsound hmarked h
  rw [Primitive.runAll_singleton hp₅.quiet] at h
  -- what does not overlap in the end has not done so before either, from the tags back to the first marks
  have hapart₅ : p₅.layout.embedded.intervals.toList.Pairwise Interval.Apart :=
    Primitive.embedded_of_run h rfl ▸ hapart
  obtain ⟨sheets, hsheets, hparts₅⟩ :=
    Primitive.hands_of_inner ht hp₄ hsound₅ hmarked₅ hrun₅ hapart₅
  obtain ⟨scripts, hscripts, hparts₄⟩ :=
    Primitive.hands_of_inner ht hp₃ hsound₄ hmarked₄ hrun₄ (hsheets.apart hapart₅)
  have hapart₂ : p₂.layout.embedded.intervals.toList.Pairwise Interval.Apart :=
    Primitive.embedded_of_run hrun₃ rfl ▸ hscripts.apart (hsheets.apart hapart₅)
  obtain ⟨short, hshort, hparts₂⟩ :=
    Primitive.hands_of_inner ht hp₁ hsound₂ hmarked₂ hrun₂ hapart₂
  obtain ⟨long, hlong, hparts₁⟩ :=
    Primitive.hands_of_inner ht hp₀ hsound₁ hmarked₁ hrun₁ (hshort.apart hapart₂)
  refine ⟨⟨ht, long ++ short, scripts, sheets, p₂, p₃, p₄, p₅, hlong.append hshort hapart₂, hrun₃, hscripts,
    hsheets, h, hp₂.weaken, hp₅.weaken, hapart, fun call hcall => ?_, fun call hcall => ?_,
    fun call hcall => ?_⟩⟩
  · rcases List.mem_append.mp hcall with hmem | hmem
    · obtain ⟨hkind, -, hmarked⟩ := hparts₁ call hmem
      exact ⟨hkind, (hmarked rfl).mono (by simp)⟩
    · obtain ⟨hkind, -, hmarked⟩ := hparts₂ call hmem
      exact ⟨hkind, (hmarked rfl).mono (by simp)⟩
  · obtain ⟨hkind, hcontent, -⟩ := hparts₄ call hcall
    exact ⟨hkind, hcontent rfl⟩
  · obtain ⟨hkind, hcontent, -⟩ := hparts₅ call hcall
    exact ⟨hkind, hcontent rfl⟩

namespace MarkupPass

variable {t t₀ : Text} {q q₀ : Pass} {b b₀ n : Nat} {call call₀ : Handover}

/-- All sections of a pass. -/
def all (m : MarkupPass t q) : List Handover :=
  m.code ++ m.scripts ++ m.sheets

section Steps

variable (m : MarkupPass t q)

/-- What the pass has recorded is what it has handed over. -/
lemma recorded : q.layout.embedded.intervals.toList.Perm (Handover.recorded m.all) := by
  rw [Primitive.embedded_of_run m.tags_run rfl, all, Handover.recorded_append,
    Handover.recorded_append]
  have hcommented := m.scripts_handed.recorded
  rw [Primitive.embedded_of_run m.comments_run rfl] at hcommented
  exact m.sheets_handed.recorded.trans
    ((hcommented.trans (m.code_handed.recorded.append_right _)).append_right _)

/-- What a pass knows of its sections in the end.

**Proof sketch.** Each of the three steps that hand over knows its own sections, and together they
are all that the pass has recorded. -/
lemma sections : q.Sections t m.all := by
  refine .of_perm (fun call hcall => ?_) m.recorded m.apart fun iv => ?_
  · simp only [all, List.mem_append] at hcall
    rcases hcall with (hmem | hmem) | hmem
    · exact ⟨_, m.code_handed.embeds.runs call hmem⟩
    · exact ⟨_, m.scripts_handed.embeds.runs call hmem⟩
    · exact ⟨_, m.sheets_handed.embeds.runs call hmem⟩
  · rw [Primitive.run_nested rfl m.tags_run, m.sheets_handed.embeds.nested,
      m.scripts_handed.embeds.nested, Primitive.run_nested rfl m.comments_run,
      m.code_handed.embeds.nested]
    simp [all, Pass.initial, IntervalSet.empty, or_and_right, exists_or, or_assoc]

/-- What shows behind the comments.

**Proof sketch.** Block comments are mapped once, by this step, so those of the pass in the end are
those that the step has painted. -/
lemma styles_commented {i : Nat} (hi : i < t.size) : m.commented.canvas.styles[i]? =
    if q.layout.blockComments.Covers i then some .comment else m.coded.canvas.styles[i]? := by
  have hblocks : q.layout.blockComments = m.styled.layout.blockComments :=
    Primitive.blockComments_of_run m.tags_run rfl
  have hrun := m.comments_run
  simp only [Primitive.markupComments, Primitive.run] at hrun
  rw [hblocks, m.sheets_handed.blockComments, m.scripts_handed.blockComments]
  refine Pass.styles_mapBlockComments (Frame.wellFormed_document m.valid _) m.coded_underway.fits
    (by decide) (by decide) ?_ hrun hi
  rw [m.code_handed.blockComments]
  rfl

/-- What shows behind the tags.

**Proof sketch.** No tags were mapped before, and no sections are mapped behind the tags. -/
lemma tagged : q.Tagged (.document t .permissive) m.styled.canvas := by
  have htags : m.commented.layout.tags = m.coded.layout.tags :=
    Primitive.tags_of_run m.comments_run rfl
  have hvalues : m.commented.layout.attributeValues = m.coded.layout.attributeValues :=
    Primitive.attributeValues_of_run m.comments_run rfl
  have hembedded := Primitive.embedded_of_run m.tags_run rfl
  have hopened : t.SectionsOpened m.styled.layout.embedded := by
    refine ⟨m.styled_underway.fits.layout.embedded.fits.sorted.nested ⟨fun iv hiv => ?_, ?_⟩,
      m.styled_underway.starts⟩
    · exact (Handover.mem_recorded.mp (m.recorded.mem_iff.mp (hembedded ▸ hiv))).1
    · exact hembedded ▸ m.apart
  have hrun := m.tags_run
  simp only [Primitive.run] at hrun
  refine Pass.mapTags_tagged (Frame.wellFormed_document m.valid _) ⟨rfl, rfl, rfl⟩
    m.styled_underway.fits.text hopened ?_ ?_ hrun
  · rw [m.sheets_handed.tags, m.scripts_handed.tags, htags, m.code_handed.tags]
    rfl
  · rw [m.sheets_handed.attributeValues, m.scripts_handed.attributeValues, hvalues,
      m.code_handed.attributeValues]
    rfl

/-- The sections are told apart by their kinds.

**Proof sketch.** PHP code, scripts and style sheets have names of their own. -/
lemma mem_iff : (call ∈ m.code ↔
      call ∈ m.all ∧ call.region.interval.kind = .embedded Profile.phpCode.name) ∧
    (call ∈ m.scripts ↔
      call ∈ m.all ∧ call.region.interval.kind = .embedded Profile.javascript.name) ∧
    (call ∈ m.sheets ↔
      call ∈ m.all ∧ call.region.interval.kind = .embedded Profile.css.name) := by
  have hcode := m.code_parts call
  have hscripts := m.scripts_parts call
  have hsheets := m.sheets_parts call
  have hne : Profile.phpCode.name ≠ Profile.javascript.name ∧
      Profile.phpCode.name ≠ Profile.css.name ∧ Profile.javascript.name ≠ Profile.css.name := by
    decide
  simp only [all, List.mem_append]
  grind

end Steps

/-- Where a section has the same piece of a shared part as another one, so has its code.

**Proof sketch.** For PHP code the section has marks around the code, which are in the shared part if
the code is. For scripts and style sheets the section is the code. -/
lemma samePiece_code (m : MarkupPass t q) (m₀ : MarkupPass t₀ q₀) (ht : t.Twin t₀ b b₀ n)
    (hcall : call ∈ m.all) (hcall₀ : call₀ ∈ m₀.all)
    (hsame : call.region.interval.SamePiece call₀.region.interval b b₀ n) {k : Nat} (hk : k < n)
    (hpos : call.region.interval.start ≤ b + k ∧ b + k < call.region.interval.stop) :
    call.region.code.SamePiece call₀.region.code b b₀ n := by
  by_cases hkind : call.region.interval.kind = .embedded Profile.phpCode.name
  · obtain ⟨_, hruns⟩ := m.sections.runs call hcall
    obtain ⟨_, hruns₀⟩ := m₀.sections.runs call₀ hcall₀
    have hmarked := (m.code_parts call (m.mem_iff.1.mpr ⟨hcall, hkind⟩)).2
    have hmarked₀ := (m₀.code_parts call₀
      (m₀.mem_iff.1.mpr ⟨hcall₀, hsame.kind_eq.trans hkind⟩)).2
    exact hmarked.samePiece_code hmarked₀ ht (by decide) (by decide) (by decide) hsame (by omega)
      (by omega) hruns.stop_le hruns₀.stop_le hruns.code_le hruns₀.code_le
  · have hcontent {t : Text} {q : Pass} (m : MarkupPass t q) {call : Handover} (hcall : call ∈ m.all)
        (hkind : call.region.interval.kind ≠ .embedded Profile.phpCode.name) :
        call.region.IsContent := by
      rw [all, List.append_assoc, List.mem_append, List.mem_append] at hcall
      rcases hcall with hmem | hmem | hmem
      · exact absurd (m.code_parts call hmem).1 hkind
      · exact (m.scripts_parts call hmem).2
      · exact (m.sheets_parts call hmem).2
    exact (hcontent m hcall hkind).samePiece_code
      (hcontent m₀ hcall₀ (hsame.kind_eq ▸ hkind)) hsame

/-- A section that reaches into a shared part has a counterpart in the other document. -/
lemma exists_sameIn (m : MarkupPass t q) (m₀ : MarkupPass t₀ q₀) (ht : t.Twin t₀ b b₀ n)
    (halike : q.Alike q₀ b b₀ n) (hcall : call ∈ m.all) {k : Nat} (hk : k < n)
    (hpos : call.region.interval.start ≤ b + k ∧ b + k < call.region.interval.stop) :
    ∃ call₀ ∈ m₀.all, call.SameIn call₀ b b₀ n :=
  m.sections.exists_sameIn m₀.sections ht.valid ht.valid₀ halike hcall hk hpos
    fun _ hcall₀ hsame => m.samePiece_code m₀ ht hcall hcall₀ hsame hk hpos

/-- The sections of one kind show the same styles in a shared part. -/
lemma twinStyles_of_embeds (m : MarkupPass t q) (m₀ : MarkupPass t₀ q₀) (ht : t.Twin t₀ b b₀ n)
    (halike : q.Alike q₀ b b₀ n) {profile : Profile} {calls calls₀ : List Handover}
    {p p₀ r r₀ : Pass} (h : p.Embeds t profile calls r) (h₀ : p₀.Embeds t₀ profile calls₀ r₀)
    (hview : p.canvas.TwinStyles p₀.canvas b b₀ n)
    (hcalls : ∀ call, call ∈ calls ↔
      call ∈ m.all ∧ call.region.interval.kind = .embedded profile.name)
    (hcalls₀ : ∀ call, call ∈ calls₀ ↔
      call ∈ m₀.all ∧ call.region.interval.kind = .embedded profile.name) :
    r.canvas.TwinStyles r₀.canvas b b₀ n := by
  refine h.twinStyles h₀ ht hview (fun call hcall k hk h1 h2 => ?_) fun call₀ hcall₀ k hk h1 h2 => ?_
  · obtain ⟨hall, hkind⟩ := (hcalls call).mp hcall
    obtain ⟨call₀, hall₀, hsame⟩ := m.exists_sameIn m₀ ht halike hall hk ⟨h1, h2⟩
    exact ⟨call₀, (hcalls₀ call₀).mpr ⟨hall₀, hsame.interval.kind_eq.trans hkind⟩, hsame⟩
  · obtain ⟨hall₀, hkind⟩ := (hcalls₀ call₀).mp hcall₀
    obtain ⟨call, hall, hsame⟩ := m₀.exists_sameIn m ht.symm halike.symm hall₀ hk ⟨h1, h2⟩
    exact ⟨call, (hcalls call).mpr ⟨hall, hsame.interval.kind_eq.trans hkind⟩, hsame⟩

/-- **Markup in a shared part.** Full passes over two documents that share a part, without overlapping
sections, show the same styles there if they have recorded the same there.

**Proof sketch.** Step by step. The sections of one kind that reach into the part have counterparts in
the other document, with their code in the same place and the same intervals inside of it. Comments and
tags are read off from what was recorded. -/
theorem twinStyles (m : MarkupPass t q) (m₀ : MarkupPass t₀ q₀) (ht : t.Twin t₀ b b₀ n)
    (halike : q.Alike q₀ b b₀ n) : q.canvas.TwinStyles q₀.canvas b b₀ n := by
  have hsize := ht.le_size
  have hsize₀ := ht.le_size₀
  have hcoded : m.coded.canvas.TwinStyles m₀.coded.canvas b b₀ n := by
    refine m.twinStyles_of_embeds m₀ ht halike m.code_handed.embeds
      m₀.code_handed.embeds (fun k hk => ?_)
      (fun _ => m.mem_iff.1) fun _ => m₀.mem_iff.1
    exact (Buffer.styles_clear_new (by omega)).trans (Buffer.styles_clear_new (by omega)).symm
  have hcommented : m.commented.canvas.TwinStyles m₀.commented.canvas b b₀ n := by
    intro k hk
    rw [m.styles_commented (by omega), m₀.styles_commented (by omega), hcoded k hk,
      if_congr (halike.blockComments.covers_iff hk) rfl rfl]
  have hscripted := m.twinStyles_of_embeds m₀ ht halike m.scripts_handed.embeds
    m₀.scripts_handed.embeds hcommented
    (fun _ => m.mem_iff.2.1) fun _ => m₀.mem_iff.2.1
  have hstyled := m.twinStyles_of_embeds m₀ ht halike m.sheets_handed.embeds
    m₀.sheets_handed.embeds hscripted
    (fun _ => m.mem_iff.2.2) fun _ => m₀.mem_iff.2.2
  exact m.tagged.twinStyles m₀.tagged ht hstyled halike.tags halike.attributeValues halike.embedded

end MarkupPass

namespace Profile

variable {t t₀ : Text}

/-- HTML keeps the styles outside of edits of documents in which no two embedded sections overlap. -/
theorem keepsOutside_html (hapart : html.SectionsApart t) (hapart₀ : html.SectionsApart t₀) :
    html.KeepsOutside t t₀ := by
  intro w pos added removed q q₀ hw _ h h₀ hq
  obtain ⟨m⟩ := exists_markupPass hw.edited.valid h (hapart q h)
  obtain ⟨m₀⟩ := exists_markupPass hw.edited.valid₀ h₀ (hapart₀ q₀ h₀)
  exact ⟨m.twinStyles m₀ hw.twin_before hq.alike_before, m.twinStyles m₀ hw.twin_after (hq.alike_after _)⟩

/-- A PHP document with a mark is lexed as HTML. -/
lemma freshPass_php_of_mark (hsome : (t.find (mark "<?") 0 t.size).isSome = true) :
    php.freshPass t = html.freshPass t := by
  rw [freshPass_eq, freshPass_eq]
  have hprogram : php.program =
      [.ifContains (mark "<?") (Primitive.markup true) [.embed .phpCode]] := rfl
  rw [hprogram, Primitive.runAll_singleton rfl, Primitive.run]
  exact if_pos hsome

/-- PHP keeps the styles outside of edits of documents with marks in which no two embedded sections
overlap. -/
theorem keepsOutside_php_markup (hsome : (t.find (mark "<?") 0 t.size).isSome = true)
    (hsome₀ : (t₀.find (mark "<?") 0 t₀.size).isSome = true) (hapart : php.SectionsApart t)
    (hapart₀ : php.SectionsApart t₀) : php.KeepsOutside t t₀ := by
  have hhtml : html.KeepsOutside t t₀ := by
    refine keepsOutside_html ?_ ?_
    · simpa only [SectionsApart, freshPass_php_of_mark hsome] using hapart
    · simpa only [SectionsApart, freshPass_php_of_mark hsome₀] using hapart₀
  simpa only [KeepsOutside, freshPass_php_of_mark hsome, freshPass_php_of_mark hsome₀] using hhtml

end Profile

end LexPaint
