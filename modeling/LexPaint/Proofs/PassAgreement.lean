import LexPaint.Proofs.Likeness
import LexPaint.Proofs.PassSafety
import LexPaint.Proofs.SectionView

set_option relaxedAutoImplicit false
set_option autoImplicit false

/-!
# Local passes agree with full passes

A local pass and a full pass over the same text run the same program. Whatever they map is the same,
because no primitive looks at the section while it maps. What they paint is the same in the section
of the local pass. Only if the local pass finds that a full one is needed, it stops early.

## Main definitions

* `Pass.Agree`: two passes that have mapped the same and look the same in a section.

## Main results

* `Primitive.runAll_agree`: a local pass that asks for no repair agrees with the full pass.
-/

namespace LexPaint

variable {f : Frame} {s : Scene} {opened : Bool}

/-- The pass has not found that a full pass is needed, if it looks out for that. -/
def Pass.Quiet (s : Scene) (p : Pass) : Prop :=
  s.detect = true → p.repair = none

/-- A pass over a section and a pass over the whole document that have mapped the same, and whose
canvases look the same in the section. Neither asks for a full pass if it does not look out for
changes. -/
structure Pass.Agree (s : Scene) (p p' : Pass) : Prop where
  view : s.SameView p.canvas p'.canvas
  layout : p.layout.Like p'.layout
  nested : p.nested.Like p'.nested
  condition : p.condition = p'.condition
  quiet : p'.repair = none ∧ (s.detect = false → p.repair = none)

/-- Two passes agree unless the first has asked for a full pass. -/
def Pass.AgreeIfQuiet (s : Scene) (p p' : Pass) : Prop :=
  p.Quiet s → p.Agree s p'

namespace Pass

variable {p p' : Pass}

/-- A full pass asks for no repair. -/
lemma repairIf_whole (changed : Bool) (reason : RepairReason) :
    p.repairIf s.whole f changed reason = p :=
  repairIf_of_not_detect rfl changed reason

/-- A request for repair is all that a full pass leaves out. -/
lemma Agree.repairIf (h : p.Agree s p') (changed changed' : Bool) (reason : RepairReason) :
    (p.repairIf s f changed reason).Agree s (p'.repairIf s.whole f changed' reason) := by
  rw [repairIf_whole]
  exact ⟨by rw [canvas_repairIf]; exact h.view, by rw [layout_repairIf]; exact h.layout,
    by rw [nested_repairIf]; exact h.nested, by rw [condition_repairIf]; exact h.condition,
    h.quiet.1, fun hd => by rw [repairIf_of_not_detect hd]; exact h.quiet.2 hd⟩

/-! ### Literals -/

/-- Strings are mapped alike and shown alike in the section. -/
lemma mapQuotes_agree (hs : s.WellFormed) (h : p.Agree s p') (singleLine : Bool) :
    Alike (p.mapQuotes s f singleLine) (p'.mapQuotes s.whole f singleLine) (Agree s) := by
  unfold mapQuotes
  rw [Frame.quoteStep_like h.layout, h.condition]
  refine .bind (.same fun _ _ => trivial) fun _ _ _ => ?_
  refine .bind (.same fun _ _ => trivial) fun harvest _ hh => .pure ?_
  obtain ⟨rfl, -⟩ := hh
  apply Agree.repairIf
  refine ⟨h.view.paintAll hs.partOf_whole _ _, ?_, h.nested, rfl, h.quiet⟩
  exact { h.layout with quotes := (h.layout.quotes.addAll _).count _ _ }

/-- Line comments are mapped alike and shown alike in the section. -/
lemma mapLineComments_agree (hs : s.WellFormed) (h : p.Agree s p') (openers : List Mark) :
    Alike (p.mapLineComments s f openers) (p'.mapLineComments s.whole f openers) (Agree s) := by
  unfold mapLineComments
  rw [Frame.lineCommentStep_like h.layout, h.condition]
  refine .bind (.same fun _ _ => trivial) fun harvest _ hh => .pure ?_
  obtain ⟨rfl, -⟩ := hh
  apply Agree.repairIf
  refine ⟨h.view.paintAll hs.partOf_whole _ _, ?_, h.nested, rfl, h.quiet⟩
  exact { h.layout with
    lineComments := (h.layout.lineComments.addAll _).count _ _
    commentStarts := congrArg (· ++ _) h.layout.commentStarts }

/-- Block comments are mapped alike and shown alike in the section. -/
lemma mapBlockComments_agree (hs : s.WellFormed) (h : p.Agree s p') (opener closer : Mark)
    (ignoreQuoted : Bool) :
    Alike (p.mapBlockComments s f opener closer ignoreQuoted)
      (p'.mapBlockComments s.whole f opener closer ignoreQuoted) (Agree s) := by
  unfold mapBlockComments
  rw [h.condition]
  refine .bind (Sweep.collect_alike
    (Frame.blockCommentStep_alike h.layout _ opener closer ignoreQuoted) _ _
    h.layout.blockComments) fun harvest _ hh => .pure ?_
  subst hh
  refine ⟨h.view.paintAll hs.partOf_whole _ _, ?_, h.nested, rfl, h.quiet⟩
  exact { h.layout with blockComments := h.layout.blockComments.addAll _ }

/-! ### Literals that are compared entry by entry -/

variable {heredocs heredocs' operators operators' : IntervalSet}

/-- The comparison of heredocs leaves the same heredocs, whatever it is compared with. -/
lemma heredocChange_alike (hh : heredocs.Like heredocs') (ho : operators.Like operators')
    (tested : Nat) :
    Alike (CompositeSet.heredocChange ⟨heredocs, operators⟩ tested)
      (CompositeSet.heredocChange ⟨heredocs', operators'⟩ tested) fun r r' =>
      r.1.heredocs.Like r'.1.heredocs ∧ r.1.operators.Like r'.1.operators := by
  unfold CompositeSet.heredocChange CompositeSet.entriesChanged
  dsimp only
  refine .bind (.bind (P := fun _ _ => True) (fun _ _ _ _ => trivial) fun _ _ _ =>
    .pure (R := fun r r' : IntervalSet × Bool => r.1.Like r'.1) ?_) fun r r' hr => .pure ⟨hr, ho⟩
  dsimp only [IntervalSet.size]
  rw [hh.intervals]
  exact hh.count _ _

/-- The comparison of quote operators leaves the same operators, whatever it is compared with. -/
lemma operatorChange_alike (hh : heredocs.Like heredocs') (ho : operators.Like operators')
    (tested : Nat) :
    Alike (CompositeSet.operatorChange ⟨heredocs, operators⟩ tested)
      (CompositeSet.operatorChange ⟨heredocs', operators'⟩ tested) fun r r' =>
      r.1.heredocs.Like r'.1.heredocs ∧ r.1.operators.Like r'.1.operators := by
  unfold CompositeSet.operatorChange CompositeSet.entriesChanged
  dsimp only
  refine .bind (.bind (P := fun _ _ => True) (fun _ _ _ _ => trivial) fun _ _ _ =>
    .pure (R := fun r r' : IntervalSet × Bool => r.1.Like r'.1) ?_) fun r r' hr => .pure ⟨hh, hr⟩
  dsimp only [IntervalSet.size]
  rw [ho.intervals]
  exact ho.count _ _

/-- Heredocs are mapped alike and shown alike in the section. -/
lemma mapHeredocs_agree (hs : s.WellFormed) (h : p.Agree s p') :
    Alike (p.mapHeredocs s f) (p'.mapHeredocs s.whole f) (Agree s) := by
  unfold mapHeredocs
  split
  · exact .pure h
  · refine .bind (.same fun _ _ => trivial) fun harvest _ hh => ?_
    obtain ⟨rfl, -⟩ := hh
    rw [← Array.foldl_toList, ← Array.foldl_toList, ← Array.foldl_toList, ← Array.foldl_toList]
    have hadd := h.layout.heredocs.foldl (g := addHeredoc) (fun _ _ found h => by
      unfold addHeredoc
      dsimp only
      split
      · exact h.add _
      · exact (h.add _).add _) harvest.items.toList
    refine .bind (heredocChange_alike hadd h.layout.operators _) fun r r' hr => .pure ?_
    apply Agree.repairIf
    refine ⟨?_, ?_, h.nested, h.condition, h.quiet⟩
    · exact h.view.foldl (fun _ _ found h =>
        (h.paint hs.partOf_whole found.1.start found.1.stop .string).paint hs.partOf_whole
          found.2.start found.2.stop .string) _
    · exact { h.layout with heredocs := hr.1, operators := hr.2 }

/-- Quote operators are mapped alike and shown alike in the section. -/
lemma mapOperators_agree (hs : s.WellFormed) (h : p.Agree s p') :
    Alike (p.mapOperators s f) (p'.mapOperators s.whole f) (Agree s) := by
  unfold mapOperators
  split
  · exact .pure h
  · rw [Frame.operatorStep_like h.layout]
    refine .bind (.same fun _ _ => trivial) fun harvest _ hh => ?_
    obtain ⟨rfl, -⟩ := hh
    refine .bind (operatorChange_alike h.layout.heredocs (h.layout.operators.addAll harvest.items) _)
      fun r r' hr => .pure ?_
    apply Agree.repairIf
    refine ⟨h.view.paintAll hs.partOf_whole _ _, ?_, h.nested, h.condition, h.quiet⟩
    exact { h.layout with heredocs := hr.1, operators := hr.2 }

/-! ### Tags -/

/-- Tags are mapped alike and shown alike in the section. -/
lemma mapTags_agree (hs : s.WellFormed) (h : p.Agree s p') :
    Alike (p.mapTags s f) (p'.mapTags s.whole f) (Agree s) := by
  unfold mapTags
  rw [Frame.tagStep_like h.layout]
  refine .bind (.same fun _ _ => trivial) fun harvest _ hh => .pure ?_
  obtain ⟨rfl, -⟩ := hh
  rw [← Array.foldl_toList, ← Array.foldl_toList, ← Array.foldl_toList, ← Array.foldl_toList,
    ← Array.foldl_toList, ← Array.foldl_toList]
  refine ⟨?_, ?_, h.nested, h.condition, h.quiet⟩
  · exact h.view.foldl (fun _ _ tag h' =>
      h'.paintTag hs.partOf_whole h.layout.embedded.intervals tag) _
  · refine { h.layout with
      tags := h.layout.tags.foldl (fun _ _ tag h => h.add ⟨tag.start, tag.stop, .tag⟩) _
      attributeValues := h.layout.attributeValues.foldl (fun _ _ tag h => ?_) _ }
    exact h.foldl (fun _ _ value h => h.add ⟨value.1, value.2, .attributeValue⟩) _

/-! ### Tokens -/

variable {needle : Mark}

/-- The tokens of a mark show alike in the section. -/
lemma paintOccurrences_agree {c c' : Buffer} {l l' : Layout} (hs : s.WellFormed)
    (hf : f.WellFormed) (ht : s.text = f.text) (hl : l.Like l') (condition : Condition)
    (hn : needle.IsPlain) {tokenEnd : Frame.TokenEnd}
    (hend : Frame.TokenEnd.Defined f needle tokenEnd) (hview : s.SameView c c') (style : Style) :
    Alike (paintOccurrences s f l condition needle tokenEnd style c)
      (paintOccurrences s.whole f l' condition needle tokenEnd style c') s.SameView := by
  unfold paintOccurrences
  rw [Frame.tokenStep_like hl]
  split
  · exact .ok hview
  · exact paintTokens_sameView (Frame.tokenStep_scans hf condition hn hend)
      (fun b c hr => Frame.tokenStep_cutsAt hf condition hn hend hr) hf hs ht hview style

/-- Words show alike in the section. -/
lemma paintKeywords_agree (hs : s.WellFormed) (hf : f.WellFormed) (ht : s.text = f.text)
    (h : p.Agree s p') {words : List Mark} (hw : ∀ w ∈ words, w.IsPlain) (wholeWord : Bool)
    (notAfter : List Char) (style : Style) :
    Alike (p.paintKeywords s f words wholeWord notAfter style)
      (p'.paintKeywords s.whole f words wholeWord notAfter style) (Agree s) := by
  unfold paintKeywords
  rw [h.condition]
  refine .bind (.foldlM (R := s.SameView) h.view fun word hword c c' hc => ?_) fun c c' hc => .pure ?_
  · exact paintOccurrences_agree hs hf ht h.layout _ (hw word hword)
      (Frame.wordEnd_defined (hw word hword) _ _) hc style
  · exact ⟨hc, h.layout, h.nested, rfl, h.quiet⟩

/-- Words with suffixes show alike in the section. -/
lemma paintExtensible_agree (hs : s.WellFormed) (hf : f.WellFormed) (ht : s.text = f.text)
    (h : p.Agree s p') {base : Mark} (hb : base.IsPlain) {suffixes : List Mark}
    (hsuffixes : ∀ m ∈ suffixes, m.IsPlain) (style : Style) :
    Alike (p.paintExtensible s f base suffixes style)
      (p'.paintExtensible s.whole f base suffixes style) (Agree s) := by
  unfold paintExtensible
  rw [h.condition]
  refine .bind (paintOccurrences_agree hs hf ht h.layout _ hb
    (Frame.extendedEnd_defined hf hb hsuffixes) h.view style) fun c c' hc => .pure ?_
  exact ⟨hc, h.layout, h.nested, rfl, h.quiet⟩

/-- Variables show alike in the section. -/
lemma paintVariables_agree (hs : s.WellFormed) (hf : f.WellFormed) (ht : s.text = f.text)
    (h : p.Agree s p') (hseal : f.text.Sealed f.hi) {sign : Char} (hsign : sign ≠ '\n')
    (ends exceptions : List Char) :
    Alike (p.paintVariables s f sign ends exceptions)
      (p'.paintVariables s.whole f sign ends exceptions) (Agree s) := by
  unfold paintVariables
  rw [Frame.variableStep_like h.layout, h.condition]
  refine .bind (paintTokens_sameView (Frame.variableStep_scans hf _ hsign ends exceptions hseal)
    (fun b c hr => Frame.variableStep_cutsAt hf _ hsign ends exceptions hseal hr) hf hs ht h.view _)
    fun c c' hc => .pure ?_
  exact ⟨hc, h.layout, h.nested, rfl, h.quiet⟩

/-- Single bytes show alike in the section. -/
lemma paintMarks_agree (hs : s.WellFormed) (hf : f.WellFormed) (ht : s.text = f.text)
    (h : p.Agree s p') {bytes : List UInt8} (hb : ∀ b ∈ bytes, b < 0x80 ∧ b ≠ newline)
    (style : Style) :
    Alike (p.paintMarks s f bytes style) (p'.paintMarks s.whole f bytes style) (Agree s) := by
  unfold paintMarks
  rw [Frame.markStep_like h.layout]
  refine .bind (paintTokens_sameView (Frame.markStep_scans hf hb)
    (fun b c hr => Frame.markStep_cutsAt hf hb hr) hf hs ht h.view style) fun c c' hc => .pure ?_
  exact ⟨hc, h.layout, h.nested, h.condition, h.quiet⟩

/-! ### Embedded sections -/

/-- What the body of an embedded section has to do in a local and in a full pass: to keep agreement
unless it asks for a full pass, and not to withdraw such a request. -/
structure BodiesAgree (s : Scene) (dialect : Dialect) (needsSeal : Bool)
    (body body' : Frame → Pass → Checked Pass) : Prop where
  agree : ∀ g : Frame, g.WellFormed → g.text = s.text → g.dialect = dialect →
    (needsSeal = true → g.text.Sealed g.hi) → ∀ q q' : Pass, q'.Fits g true → q.Agree s q' →
    Alike (body g q) (body' g q') (AgreeIfQuiet s)
  quiet : ∀ (g : Frame) (q r : Pass), body g q = .ok r → r.Quiet s → q.Quiet s

variable {dialect : Dialect} {needsSeal : Bool} {body body' : Frame → Pass → Checked Pass}

/-- A part that is handed over is treated alike, if the body is. **Proof sketch.** The body runs on a
layout of its own, over the same scope. Unless it asks for a full pass, both canvases look the same
in the section afterwards, and both layouts are as before. -/
lemma delegate_agree (hf : f.WellFormed) (ht : s.text = f.text) {lo hi : Nat}
    (hlo : f.text.isBoundary lo = true) (hhi : f.text.isBoundary hi = true) (hle : lo ≤ hi)
    (hbody : BodiesAgree s dialect needsSeal body body')
    (hseal : needsSeal = true → f.text.Sealed hi) (hp : p'.canvas.text = f.text)
    (h : p.AgreeIfQuiet s p') :
    Alike (p.delegate f lo hi dialect body) (p'.delegate f lo hi dialect body')
      (AgreeIfQuiet s) := by
  unfold delegate
  refine .bind (.same fun _ => (Frame.enter_ensures hf hlo hhi hle dialect).elim) fun g _ hg => ?_
  obtain ⟨rfl, hgf, htext, -, hghi, hd, -⟩ := hg
  dsimp only
  intro r r' hr hr'
  obtain ⟨q, hq, hr⟩ := bind_eq_ok.mp hr
  obtain ⟨q', hq', hr'⟩ := bind_eq_ok.mp hr'
  cases hr
  cases hr'
  intro hquiet
  have hstill := hbody.quiet g _ q hq hquiet
  have hagree := h hstill
  have hbodies := hbody.agree g hgf (htext.trans ht.symm) hd (by rw [htext, hghi]; exact hseal)
    ⟨p.canvas, .empty, p.nested, .unconditional, p.repair⟩
    ⟨p'.canvas, .empty, p'.nested, .unconditional, p'.repair⟩
    ⟨by rw [htext]; exact hp, Layout.fits_empty⟩
    ⟨hagree.view, .refl _, hagree.nested, rfl, hagree.quiet⟩ q q' hq hq' hquiet
  refine ⟨hbodies.view, hagree.layout, ?_, hagree.condition, hbodies.quiet⟩
  rw [hbodies.layout.allIntervals_eq]
  exact hbodies.nested.foldl (fun _ _ iv h => h.add iv) _

/-- Embedded sections are mapped alike, and the bodies run over the same scopes. **Proof sketch.**
Both sweeps find the same regions. The bodies run one after another, so the rest is an induction on
the regions. A request for a full pass in one of them is kept by all that follow. -/
lemma mapRegions_agree (hs : s.WellFormed) (hf : f.WellFormed) (ht : s.text = f.text)
    (hp : p'.Fits f opened) (h : p.Agree s p') {startTag endTag : Mark}
    (hstart : startTag.IsPlain) (hend : endTag.IsPlain) {element : Bool} (needsSeal : Bool)
    (name : String) (hopened : opened = true → element = false ∧ startTag.StartsSealed)
    (hsucceeds : BodySucceeds f.text dialect needsSeal body')
    (hbody : BodiesAgree s dialect needsSeal body body')
    (hneeds : needsSeal = true → opened = true ∧ endTag.StartsSealed ∧ f.text.Sealed f.hi) :
    Alike (p.mapRegions s f startTag endTag element name dialect body)
      (p'.mapRegions s.whole f startTag endTag element name dialect body') (AgreeIfQuiet s) := by
  unfold mapRegions
  split
  · exact .pure fun _ => h
  · intro r r' hr hr'
    obtain ⟨harvest, hc, hr⟩ := bind_eq_ok.mp hr
    obtain ⟨harvest', hc', hr'⟩ := bind_eq_ok.mp hr'
    obtain rfl := Sweep.collect_alike
      (Frame.regionStep_alike h.layout startTag endTag element name) _ _ h.layout.embedded _ _ hc hc'
    obtain ⟨-, hfound, -⟩ := (Frame.regions_ensures hf p'.layout hstart hend name hopened
      hp.layout.embedded).elim hc'
    dsimp only at hr hr'
    rw [← Array.foldl_toList, ← Array.foldlM_toList] at hr hr'
    have hembedded := h.layout.embedded.foldl (fun _ _ r h => Frame.addRegion_like h r)
      harvest.items.toList
    refine (Alike.foldlM (R := fun q q' => q'.canvas.text = f.text ∧ q.AgreeIfQuiet s q')
      ⟨hp.text, fun _ => ?_⟩ (fun region hregion q q' hq => ?_) r r' hr hr').2
    · exact ⟨h.view, { h.layout with embedded := hembedded }, h.nested, h.condition, h.quiet⟩
    · have hfits := hfound region (by simpa using hregion)
      have hseal : needsSeal = true → f.text.Sealed region.codeStop := fun hn => by
        obtain ⟨h1, h2, h3⟩ := hneeds hn
        exact hfits.sealedStop h1 h2 h3
      have htext : (paintRegionMarks s.whole endTag element region q'.canvas).text = f.text := by
        rw [text_paintRegionMarks]
        exact hq.1
      -- the full pass keeps the text, which the next region is lexed in
      intro a b ha hb
      refine ⟨((delegate_ensures hf hfits.fits.codeStartBoundary hfits.fits.codeStopBoundary
        hfits.fits.codeStart_le hsucceeds hseal htext).elim hb).1, ?_⟩
      refine delegate_agree hf ht hfits.fits.codeStartBoundary hfits.fits.codeStopBoundary
        hfits.fits.codeStart_le hbody hseal htext (fun hquiet => ?_) a b ha hb
      have hagree := hq.2 hquiet
      exact ⟨hagree.view.paintRegionMarks hs.partOf_whole _ _ _, hagree.layout, hagree.nested,
        hagree.condition, hagree.quiet⟩

/-- A scope that is handed over as a whole is treated alike. -/
lemma embedScope_agree (hf : f.WellFormed) (ht : s.text = f.text) (hp : p'.Fits f opened)
    (h : p.Agree s p') (needsSeal : Bool) (name : String)
    (hbody : BodiesAgree s dialect needsSeal body body')
    (hneeds : needsSeal = true → f.text.Sealed f.hi) :
    Alike (p.embedScope f name dialect body) (p'.embedScope f name dialect body')
      (AgreeIfQuiet s) := by
  unfold embedScope
  refine delegate_agree hf ht hf.loBoundary hf.hiBoundary hf.ordered hbody hneeds hp.text fun _ => ?_
  refine ⟨h.view, { h.layout with embedded := ?_ }, h.nested, h.condition, h.quiet⟩
  dsimp only
  split
  · exact h.layout.embedded
  · exact h.layout.embedded.add _

end Pass

/-! ### Programs -/

namespace Primitive

/-- A request for a full pass is never withdrawn.

**Proof sketch.** A run that has asked for a full pass stops. -/
lemma runAll_quiet (program : List Primitive) (f : Frame) (p q : Pass)
    (hq : runAll s program f p = .ok q) (hquiet : q.Quiet s) : p.Quiet s := by
  intro hdetect
  cases hrepair : p.repair with
  | none => rfl
  | some reason =>
    rw [runAll_of_repair hrepair] at hq
    obtain rfl := Except.ok.inj hq
    rw [← hrepair]
    exact hquiet hdetect

mutual

/-- A primitive does the same in a local and in a full pass.

**Proof sketch.** One case for each primitive, as for `run_ensures`. -/
theorem run_agree (hs : s.WellFormed) :
    ∀ (primitive : Primitive) (opened : Bool) (f : Frame) (p p' : Pass),
      sound opened primitive = true → f.WellFormed → s.text = f.text →
      f.dialect.isPlain = true → (needsSeal primitive = true → f.text.Sealed f.hi) →
      p'.Fits f opened → p.Agree s p' →
      Alike (run s primitive f p) (run s.whole primitive f p') (Pass.AgreeIfQuiet s)
  | .setCondition condition, opened, f, p, p', _, _, _, _, _, _, h => by
    simp only [run]
    exact .ok fun _ => ⟨h.view, h.layout, h.nested, rfl, h.quiet⟩
  | .quotes singleLine, opened, f, p, p', _, _, _, _, _, _, h => by
    simp only [run]
    exact (Pass.mapQuotes_agree hs h singleLine).mono fun _ _ _ _ h _ => h
  | .lineComments openers, opened, f, p, p', _, _, _, _, _, _, h => by
    simp only [run]
    exact (Pass.mapLineComments_agree hs h openers).mono fun _ _ _ _ h _ => h
  | .blockComments opener closer ignoreQuoted, opened, f, p, p', _, _, _, _, _, _, h => by
    simp only [run]
    exact (Pass.mapBlockComments_agree hs h opener closer ignoreQuoted).mono fun _ _ _ _ h _ => h
  | .keywords words wholeWord notAfter style, opened, f, p, p', hw, hf, ht, _, _, _, h => by
    simp only [run]
    simp only [sound, List.all_eq_true, decide_eq_true_eq] at hw
    exact (Pass.paintKeywords_agree hs hf ht h hw wholeWord notAfter style).mono fun _ _ _ _ h _ => h
  | .extensibleKeyword base suffixes style, opened, f, p, p', hw, hf, ht, _, _, _, h => by
    simp only [run]
    simp only [sound, Bool.and_eq_true, decide_eq_true_eq] at hw
    exact (Pass.paintExtensible_agree hs hf ht h hw.1 (by simpa using hw.2) style).mono
      fun _ _ _ _ h _ => h
  | .signedVariable sign ends exceptions, opened, f, p, p', hw, hf, ht, _, hseal, _, h => by
    simp only [run]
    simp only [sound, bne_iff_ne] at hw
    exact (Pass.paintVariables_agree hs hf ht h (hseal rfl) hw ends exceptions).mono
      fun _ _ _ _ h _ => h
  | .marks bytes style, opened, f, p, p', hw, hf, ht, _, _, _, h => by
    simp only [run]
    simp only [sound, List.all_eq_true, Bool.and_eq_true, decide_eq_true_eq, bne_iff_ne] at hw
    exact (Pass.paintMarks_agree hs hf ht h hw style).mono fun _ _ _ _ h _ => h
  | .heredocs, opened, f, p, p', _, _, _, _, _, _, h => by
    simp only [run]
    exact (Pass.mapHeredocs_agree hs h).mono fun _ _ _ _ h _ => h
  | .quoteOperators, opened, f, p, p', _, _, _, _, _, _, h => by
    simp only [run]
    exact (Pass.mapOperators_agree hs h).mono fun _ _ _ _ h _ => h
  | .tags, opened, f, p, p', _, _, _, _, _, _, h => by
    simp only [run]
    exact (Pass.mapTags_agree hs h).mono fun _ _ _ _ h _ => h
  | .innerSection startTag endTag element name dialect body, opened, f, p, p', hw, hf, ht, _, hseal,
      hp, h => by
    simp only [run]
    simp only [sound, Bool.and_eq_true, Bool.or_eq_true, decide_eq_true_eq, Bool.not_eq_true'] at hw
    obtain ⟨⟨⟨⟨hstart, hend⟩, hd⟩, hbody⟩, hneeds⟩ := hw
    have hp' : p'.Fits f (opened && !element && decide startTag.StartsSealed) :=
      ⟨hp.text, hp.layout.weaken fun ho => by simp_all⟩
    refine Pass.mapRegions_agree hs hf ht hp' h hstart hend (needsSealAll body) name ?_
      (bodySucceeds hs.whole hd hbody ht) ⟨?_, runAll_quiet body⟩ ?_
    · intro ho
      simp only [Bool.and_eq_true, Bool.not_eq_true', decide_eq_true_eq] at ho
      exact ⟨ho.1.2, ho.2⟩
    · intro g hg hgt hgd hgs q q' hq h'
      subst hgd
      exact runAll_agree hs body true g q q' hbody hg hgt.symm hd hgs hq h'
    · intro hn
      rcases hneeds with h | ⟨⟨⟨ho, hel⟩, hst⟩, hen⟩
      · rw [hn] at h
        cases h
      · exact ⟨by simp [ho, hel, hst], hen, hseal hn⟩
  | .embedScope name dialect body, opened, f, p, p', hw, hf, ht, _, hseal, hp, h => by
    simp only [run]
    simp only [sound, Bool.and_eq_true] at hw
    simp only [needsSeal] at hseal
    refine Pass.embedScope_agree hf ht hp h (needsSealAll body) name ⟨?_, runAll_quiet body⟩ hseal
    intro g hg hgt hgd hgs q q' hq h'
    subst hgd
    exact runAll_agree hs body true g q q' hw.2 hg hgt.symm hw.1 hgs hq h'
  | .ifContains needle yes no, opened, f, p, p', hw, hf, ht, hd, hseal, hp, h => by
    simp only [run]
    simp only [sound, Bool.and_eq_true] at hw
    simp only [needsSeal, Bool.or_eq_true] at hseal
    split
    · exact runAll_agree hs yes opened f p p' hw.1 hf ht hd (fun hn => hseal (.inl hn)) hp h
    · exact runAll_agree hs no opened f p p' hw.2 hf ht hd (fun hn => hseal (.inr hn)) hp h

/-- **Local passes agree with full passes.**

**Proof sketch.** Induction on the program, together with that on the primitives that embed other
programs. A local pass that has asked for a full one stops where it is, and nothing is claimed of it. -/
theorem runAll_agree (hs : s.WellFormed) :
    ∀ (program : List Primitive) (opened : Bool) (f : Frame) (p p' : Pass),
      soundAll opened program = true → f.WellFormed → s.text = f.text →
      f.dialect.isPlain = true → (needsSealAll program = true → f.text.Sealed f.hi) →
      p'.Fits f opened → p.Agree s p' →
      Alike (runAll s program f p) (runAll s.whole program f p') (Pass.AgreeIfQuiet s)
  | [], opened, f, p, p', _, _, _, _, _, _, h => by
    simp only [runAll]
    exact .ok fun _ => h
  | primitive :: rest, opened, f, p, p', hw, hf, ht, hd, hseal, hp, h => by
    simp only [soundAll, Bool.and_eq_true] at hw
    simp only [needsSealAll, Bool.or_eq_true] at hseal
    rw [runAll_cons h.quiet.1]
    cases hrepair : p.repair with
    | some reason =>
      -- the local pass stops here, because it has asked for a full one
      rw [runAll_of_repair hrepair]
      intro a b ha _ hquiet
      cases ha
      have hnone : p.repair = none := by
        cases hdetect : s.detect with
        | false => exact h.quiet.2 hdetect
        | true => exact hquiet hdetect
      rw [hrepair] at hnone
      cases hnone
    | none =>
      rw [runAll_cons hrepair]
      intro r r' hr hr' hquiet
      obtain ⟨q, hq, hr⟩ := bind_eq_ok.mp hr
      obtain ⟨q', hq', hr'⟩ := bind_eq_ok.mp hr'
      have hsteps := run_agree hs primitive opened f p p' hw.1 hf ht hd
        (fun hn => hseal (.inl hn)) hp h q q' hq hq'
      have hfits := (run_ensures hs.whole primitive opened f p' hw.1 hf ht hd
        (fun hn => hseal (.inl hn)) hp).elim hq'
      have hagree := hsteps (runAll_quiet rest f q r hr hquiet)
      exact runAll_agree hs rest _ f q q' hw.2 hf ht hd (fun hn => hseal (.inr hn)) hfits hagree
        r r' hr hr' hquiet

end

end Primitive

end LexPaint
