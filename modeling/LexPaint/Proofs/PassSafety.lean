import LexPaint.Pass.Run
import LexPaint.Proofs.LiteralScans
import LexPaint.Proofs.TokenScans

set_option relaxedAutoImplicit false
set_option autoImplicit false

/-!
# Passes succeed

A pass runs a program over a scope. Whatever the program has mapped so far lies in the scope, which
is all that a later primitive needs to succeed and to map in the scope in its turn. By induction on
the program, with the programs of embedded languages inside it, a pass over a valid text never
stops with a fault.

## Main definitions

* `Layout.Fits`: what was mapped lies in the scope.
* `Primitive.sound`: the marks of a primitive are plain, and names behind a sign are not cut off.

## Main results

* `Primitive.runAll_ensures`: a sound program succeeds on every scope.
-/

namespace LexPaint

variable {f : Frame} {s : Scene} {opened : Bool}

/-! ### Layouts that fit a scope -/

/-- What was mapped lies in the scope, and lengths can be taken of the entries that are compared by
length, now and in the history. -/
structure Layout.Fits (f : Frame) (opened : Bool) (l : Layout) : Prop where
  quotes : l.quotes.Fits f.lo f.hi
  lineComments : l.lineComments.Fits f.lo f.hi
  blockComments : l.blockComments.Fits f.lo f.hi
  heredocs : l.composite.heredocs.Fits f.lo f.hi
  operators : l.composite.operators.Fits f.lo f.hi
  tags : l.tags.Fits f.lo f.hi
  attributeValues : l.attributeValues.Fits f.lo f.hi
  embedded : f.EmbeddedFits opened l.embedded
  starts : ∀ start ∈ l.commentStarts, f.text.isBoundary start = true
  heredocHistory : ∀ iv ∈ l.composite.heredocs.retained, iv.start ≤ iv.stop
  operatorHistory : ∀ iv ∈ l.composite.operators.retained, iv.start ≤ iv.stop

/-- The layout fits the scope, and the canvas holds the document. -/
structure Pass.Fits (f : Frame) (opened : Bool) (p : Pass) : Prop where
  text : p.canvas.text = f.text
  layout : p.layout.Fits f opened

/-- An empty layout fits every scope. -/
lemma Layout.fits_empty : Layout.empty.Fits f opened where
  quotes := IntervalSet.fits_empty
  lineComments := IntervalSet.fits_empty
  blockComments := IntervalSet.fits_empty
  heredocs := IntervalSet.fits_empty
  operators := IntervalSet.fits_empty
  tags := IntervalSet.fits_empty
  attributeValues := IntervalSet.fits_empty
  embedded := Frame.embeddedFits_empty opened
  starts := by simp [Layout.empty]
  heredocHistory := by simp [Layout.empty, CompositeSet.empty, IntervalSet.empty]
  operatorHistory := by simp [Layout.empty, CompositeSet.empty, IntervalSet.empty]

/-- A layout fits a scope without the promise about its embedded sections. -/
lemma Layout.Fits.weaken {l : Layout} (h : l.Fits f opened) {opened' : Bool}
    (ho : opened' = true → opened = true) : l.Fits f opened' :=
  { h with embedded := ⟨h.embedded.fits, h.embedded.boundary, fun h' => h.embedded.sealed (ho h')⟩ }

namespace Pass

variable {p : Pass}

/-! ### Requests for repair -/

/-- The first reason for a repair is kept. -/
lemma requestRepair_eq (p : Pass) (reason : RepairReason) :
    p.requestRepair reason = { p with repair := p.repair.or (some reason) } := by
  obtain ⟨canvas, layout, nested, condition, repair⟩ := p
  cases repair <;> rfl

/-- A request for repair leaves the layout as it is. -/
@[simp]
lemma layout_repairIf (changed : Bool) (reason : RepairReason) :
    (p.repairIf s f changed reason).layout = p.layout := by
  unfold repairIf
  split
  · rw [requestRepair_eq]
  · rfl

/-- A request for repair leaves the canvas as it is. -/
@[simp]
lemma canvas_repairIf (changed : Bool) (reason : RepairReason) :
    (p.repairIf s f changed reason).canvas = p.canvas := by
  unfold repairIf
  split
  · rw [requestRepair_eq]
  · rfl

/-- A request for repair leaves the nested intervals as they are. -/
@[simp]
lemma nested_repairIf (changed : Bool) (reason : RepairReason) :
    (p.repairIf s f changed reason).nested = p.nested := by
  unfold repairIf
  split
  · rw [requestRepair_eq]
  · rfl

/-- A request for repair leaves the condition as it is. -/
@[simp]
lemma condition_repairIf (changed : Bool) (reason : RepairReason) :
    (p.repairIf s f changed reason).condition = p.condition := by
  unfold repairIf
  split
  · rw [requestRepair_eq]
  · rfl

/-- A pass that does not look out for changes asks for no repair. -/
lemma repairIf_of_not_detect (hd : s.detect = false) (changed : Bool) (reason : RepairReason) :
    p.repairIf s f changed reason = p := by
  unfold repairIf
  rw [if_neg]
  simp [Scene.checks, hd]

/-- A request for repair keeps a pass in shape. -/
lemma Fits.repairIf (hp : p.Fits f opened) (changed : Bool) (reason : RepairReason) :
    (p.repairIf s f changed reason).Fits f opened :=
  ⟨by rw [canvas_repairIf]; exact hp.text, by rw [layout_repairIf]; exact hp.layout⟩

/-! ### Literals -/

/-- Strings can be mapped in every scope. -/
lemma mapQuotes_ensures (hf : f.WellFormed) (hp : p.Fits f opened) (singleLine : Bool) :
    Ensures (p.mapQuotes s f singleLine) (Fits f opened) := by
  unfold mapQuotes
  refine .bind (Text.checkRange_ensures (Nat.zero_le _) (Text.isBoundary_zero _) hf.hiBoundary)
    fun _ _ => ?_
  refine .bind (Frame.quotes_ensures hf _ _ singleLine) fun h hh => .pure ?_
  refine Fits.repairIf ⟨?_, ?_⟩ _ _
  · rw [Scene.text_paintAll]
    exact hp.text
  · exact { hp.layout with
      quotes := (hp.layout.quotes.addAll fun iv hiv => hh.1.1 iv (by simpa using hiv)).count _ _ }

/-- Line comments can be mapped in every scope. -/
lemma mapLineComments_ensures (hf : f.WellFormed) (hp : p.Fits f opened) {marks : List Mark}
    (hm : ∀ m ∈ marks, m.IsPlain) : Ensures (p.mapLineComments s f marks) (Fits f opened) := by
  unfold mapLineComments
  refine .bind (Frame.lineComments_ensures hf _ _ hm) fun h hh => .pure ?_
  refine Fits.repairIf ⟨?_, ?_⟩ _ _
  · rw [Scene.text_paintAll]
    exact hp.text
  · refine { hp.layout with
      lineComments :=
        (hp.layout.lineComments.addAll fun iv hiv => hh.1.1 iv (by simpa using hiv)).count _ _
      starts := fun start hstart => ?_ }
    rcases Array.mem_append.mp hstart with hs | hs
    · exact hp.layout.starts start hs
    · obtain ⟨iv, hiv, rfl⟩ := Array.mem_map.mp hs
      exact (hh.2 iv hiv).1

/-- Block comments can be mapped in every scope. -/
lemma mapBlockComments_ensures (hf : f.WellFormed) (hp : p.Fits f opened) {opener closer : Mark}
    (hopener : opener.IsPlain) (hcloser : closer.IsPlain) (ignoreQuoted : Bool) :
    Ensures (p.mapBlockComments s f opener closer ignoreQuoted) (Fits f opened) := by
  unfold mapBlockComments
  refine .bind (Frame.blockComments_ensures hf _ hopener hcloser ignoreQuoted hp.layout.starts _)
    fun h hh => .pure ⟨?_, ?_⟩
  · rw [Scene.text_paintAll]
    exact hp.text
  · exact { hp.layout with
      blockComments :=
        hp.layout.blockComments.addAll fun iv hiv => hh.1.1 iv (by simpa using hiv) }

end Pass

/-! ### Comparing entries by length -/

/-- An interval that does not end before it starts has a length. -/
lemma Interval.length_ensures {iv : Interval} (h : iv.start ≤ iv.stop) :
    Ensures iv.length fun n => n = iv.stop - iv.start :=
  .minus h

namespace CompositeSet

/-- The lengths of entries can be compared. -/
lemma someLengthChanged_ensures (set : IntervalSet)
    (hold : ∀ iv ∈ set.retained, iv.start ≤ iv.stop) {ivs : List Interval}
    (hivs : ∀ iv ∈ ivs, iv.start ≤ iv.stop) (index : Nat) :
    Ensures (someLengthChanged set index ivs) fun _ => True := by
  induction ivs generalizing index with
  | nil => exact .pure trivial
  | cons iv rest ih =>
    unfold someLengthChanged
    refine .bind (Interval.length_ensures (hivs iv (List.mem_cons_self ..))) fun n _ => ?_
    refine .bind (P := fun _ => True) ?_ fun changed _ => ?_
    · unfold IntervalSet.lengthChanged
      split
      · rename_i old hget
        have hle := hold old (Array.mem_of_getElem? hget)
        exact .bind (Interval.length_ensures hle) fun _ _ => .pure trivial
      · exact .pure trivial
    · exact .bind (ih (fun x hx => hivs x (List.mem_cons_of_mem _ hx)) (index + 1))
        fun _ _ => .pure trivial

/-- The entries of a set can be compared with those of the history. -/
lemma entriesChanged_ensures {lo hi : Nat} {set : IntervalSet}
    (hold : ∀ iv ∈ set.retained, iv.start ≤ iv.stop) (hset : set.Fits lo hi) (tested : Nat) :
    Ensures (entriesChanged set tested) fun r => r.1 = set.count tested set.size := by
  unfold entriesChanged
  dsimp only
  refine .bind (someLengthChanged_ensures (set.count tested set.size) hold
    (fun iv hiv => ?_) 0) fun _ _ => .pure rfl
  exact (hset.within iv (Array.mem_toList_iff.mp hiv)).2.1

end CompositeSet

namespace Pass

variable {p : Pass}

/-- Heredocs that lie in the scope can be added to a set, and the history stays. -/
lemma foldl_addHeredoc_fits {lo hi : Nat} {set : IntervalSet} {found : List (Interval × Interval)}
    (hset : set.Fits lo hi) (hfound : Tiles lo hi (found.flatMap Frame.heredocIntervals)) :
    (found.foldl addHeredoc set).Fits lo hi ∧
      (found.foldl addHeredoc set).retained = set.retained := by
  have hin := hfound.1
  clear hfound
  induction found generalizing set with
  | nil => exact ⟨hset, rfl⟩
  | cons x rest ih =>
    have h1 := hin x.1 (by simp [Frame.heredocIntervals])
    have h2 := hin x.2 (by simp [Frame.heredocIntervals])
    have hadd : (addHeredoc set x).Fits lo hi ∧ (addHeredoc set x).retained = set.retained := by
      unfold addHeredoc
      dsimp only
      split
      · exact ⟨hset.add h1, rfl⟩
      · exact ⟨(hset.add h1).add h2, rfl⟩
    obtain ⟨h3, h4⟩ := ih hadd.1 fun iv hiv => hin iv (by
      rw [List.flatMap_cons]
      exact List.mem_append_right _ hiv)
    exact ⟨h3, h4.trans hadd.2⟩

/-- Heredocs can be mapped in every scope. **Proof sketch.** By the scan the openers and bodies lie
in the scope, so their lengths can be taken, also when they become the history of a later pass. -/
lemma mapHeredocs_ensures (hf : f.WellFormed) (hp : p.Fits f opened)
    (hd : ∀ r, f.dialect.heredocs = some r → r.opener.IsPlain) :
    Ensures (p.mapHeredocs s f) (Fits f opened) := by
  unfold mapHeredocs
  split
  · exact .pure hp
  · rename_i rules hrules
    refine .bind (Frame.heredocs_ensures hf (hd rules hrules)) fun h hh => ?_
    rw [← Array.foldl_toList, ← Array.foldl_toList]
    obtain ⟨hfits, hretained⟩ := foldl_addHeredoc_fits hp.layout.heredocs hh.1
    have hold := hp.layout.heredocHistory
    rw [← hretained] at hold
    unfold CompositeSet.heredocChange
    dsimp only
    refine .bind (.bind (CompositeSet.entriesChanged_ensures hold hfits _) fun r hr =>
      .pure (Q := fun r : CompositeSet × Bool => r.1.heredocs.Fits f.lo f.hi ∧
        (∀ iv ∈ r.1.heredocs.retained, iv.start ≤ iv.stop) ∧
        r.1.operators = p.layout.composite.operators) ?_) fun r hr => .pure ?_
    · rw [hr]
      exact ⟨hfits.count _ _, hold, rfl⟩
    · obtain ⟨h1, h2, h3⟩ := hr
      refine Fits.repairIf ⟨?_, ?_⟩ _ _
      · refine (Scene.text_foldl (fun canvas found => ?_) _ _).trans hp.text
        rw [Scene.text_paint, Scene.text_paint]
      · exact { hp.layout with
          heredocs := h1
          operators := h3 ▸ hp.layout.operators
          heredocHistory := h2
          operatorHistory := h3 ▸ hp.layout.operatorHistory }

/-- Adding intervals to a set leaves its history alone. -/
lemma retained_addAll (set : IntervalSet) (ivs : Array Interval) :
    (set.addAll ivs).retained = set.retained := by
  rw [IntervalSet.addAll, ← Array.foldl_toList]
  generalize ivs.toList = l
  induction l generalizing set with
  | nil => rfl
  | cons x rest ih => rw [List.foldl_cons, ih]; rfl

/-- Quote operators can be mapped in every scope. -/
lemma mapOperators_ensures (hf : f.WellFormed) (hp : p.Fits f opened) :
    Ensures (p.mapOperators s f) (Fits f opened) := by
  unfold mapOperators
  split
  · exact .pure hp
  · rename_i rules hrules
    refine .bind (Frame.operators_ensures hf _ rules) fun h hh => ?_
    have hfits := hp.layout.operators.addAll fun iv hiv => hh.1.1 iv (by simpa using hiv)
    have hold := hp.layout.operatorHistory
    rw [← retained_addAll _ h.items] at hold
    unfold CompositeSet.operatorChange
    dsimp only
    refine .bind (.bind (CompositeSet.entriesChanged_ensures hold hfits _) fun r hr =>
      .pure (Q := fun r : CompositeSet × Bool => r.1.operators.Fits f.lo f.hi ∧
        (∀ iv ∈ r.1.operators.retained, iv.start ≤ iv.stop) ∧
        r.1.heredocs = p.layout.composite.heredocs) ?_) fun r hr => .pure ?_
    · rw [hr]
      exact ⟨hfits.count _ _, hold, rfl⟩
    · obtain ⟨h1, h2, h3⟩ := hr
      refine Fits.repairIf ⟨?_, ?_⟩ _ _
      · rw [Scene.text_paintAll]
        exact hp.text
      · exact { hp.layout with
          heredocs := h3 ▸ hp.layout.heredocs
          operators := h1
          heredocHistory := h3 ▸ hp.layout.heredocHistory
          operatorHistory := h2 }

end Pass

namespace Pass

variable {p : Pass}

/-! ### Tags -/

/-- Painting around embedded sections leaves the text alone. -/
lemma text_paintOutside (canvas : Buffer) (embedded : IntervalSet) (start stop : Nat)
    (style : Style) :
    (s.paintOutside canvas embedded start stop style).text = canvas.text := by
  unfold Scene.paintOutside
  dsimp only
  rw [Scene.text_paint]
  generalize embedded.intervals.toList.filter _ = gaps
  have h : ∀ state : Buffer × Nat, (gaps.foldl
      (fun (state : Buffer × Nat) iv =>
        (s.paint state.1 state.2 (max iv.start state.2) style, max state.2 iv.stop)) state).1.text =
        state.1.text := by
    induction gaps with
    | nil => exact fun _ => rfl
    | cons iv rest ih =>
      intro state
      rw [List.foldl_cons, ih, Scene.text_paint]
  exact h (canvas, start)

/-- Painting a tag leaves the text alone. -/
lemma text_paintTag (embedded : IntervalSet) (canvas : Buffer) (tag : TagFind) :
    (paintTag s embedded canvas tag).text = canvas.text := by
  unfold paintTag
  dsimp only
  rw [Scene.text_foldl fun canvas value => text_paintOutside canvas embedded _ _ _,
    Scene.text_foldl fun canvas run => Scene.text_paint s canvas _ _ _, Scene.text_paint]

/-- What lies in the scope can be added to a set. -/
lemma foldl_add_fits {lo hi : Nat} {α : Type} {g : α → Interval} {set : IntervalSet}
    {found : List α} (hset : set.Fits lo hi)
    (hfound : ∀ a ∈ found, lo ≤ (g a).start ∧ (g a).start ≤ (g a).stop ∧ (g a).stop ≤ hi) :
    (found.foldl (fun set a => set.add (g a)) set).Fits lo hi := by
  induction found generalizing set with
  | nil => exact hset
  | cons a rest ih =>
    exact ih (hset.add (hfound a (List.mem_cons_self ..)))
      fun b hb => hfound b (List.mem_cons_of_mem _ hb)

/-- Tags can be mapped in every scope. -/
lemma mapTags_ensures (hf : f.WellFormed) (hp : p.Fits f opened) :
    Ensures (p.mapTags s f) (Fits f opened) := by
  unfold mapTags
  refine .bind (Frame.tags_ensures hf hp.layout.embedded.fits hp.layout.blockComments)
    fun h hh => .pure ?_
  obtain ⟨-, htags⟩ := hh
  rw [← Array.foldl_toList, ← Array.foldl_toList, ← Array.foldl_toList]
  have hlist : ∀ tag ∈ h.items.toList, f.TagFits tag := fun tag ht => htags tag (by simpa using ht)
  refine ⟨(Scene.text_foldl (text_paintTag _) _ _).trans hp.text, ?_⟩
  refine { hp.layout with
    tags := foldl_add_fits (g := fun tag : TagFind => ⟨tag.start, tag.stop, .tag⟩) hp.layout.tags
      fun tag ht => ?_
    attributeValues := ?_ }
  · have := hlist tag ht
    exact ⟨this.start_ge, Nat.le_of_lt this.start_lt, this.stop_le⟩
  · -- the values of one tag after the other
    have hset := hp.layout.attributeValues
    generalize p.layout.attributeValues = set at hset
    generalize h.items.toList = found at hlist
    induction found generalizing set with
    | nil => exact hset
    | cons tag rest ih =>
      refine ih _ ?_ fun t ht => hlist t (List.mem_cons_of_mem _ ht)
      have hfits := hlist tag (List.mem_cons_self ..)
      refine foldl_add_fits (g := fun value : Nat × Nat => ⟨value.1, value.2, .attributeValue⟩) hset
        fun value hv => ?_
      have h1 := hfits.values.1 ⟨value.1, value.2, .attributeValue⟩
        (List.mem_map.mpr ⟨value, hv, rfl⟩)
      have h2 := hfits.start_ge
      have h3 := hfits.stop_le
      dsimp only at h1 ⊢
      omega

/-! ### Embedded sections -/

/-- What the body of an embedded section has to do: to succeed on every scope of the dialect, and
to keep the text of the canvas. If `seal`, only scopes whose end is sealed count. -/
def BodySucceeds (t : Text) (dialect : Dialect) (needsSeal : Bool)
    (body : Frame → Pass → Checked Pass) : Prop :=
  ∀ g : Frame, g.WellFormed → g.text = t → g.dialect = dialect →
    (needsSeal = true → g.text.Sealed g.hi) →
    ∀ q : Pass, q.Fits g true → Ensures (body g q) fun q => q.canvas.text = t

/-- A part of a scope can be handed over, and the layout stays as it is. -/
lemma delegate_ensures (hf : f.WellFormed) {lo hi : Nat} (hlo : f.text.isBoundary lo = true)
    (hhi : f.text.isBoundary hi = true) (hle : lo ≤ hi) {dialect : Dialect} {needsSeal : Bool}
    {body : Frame → Pass → Checked Pass} (hbody : BodySucceeds f.text dialect needsSeal body)
    (hseal : needsSeal = true → f.text.Sealed hi) (hp : p.canvas.text = f.text) :
    Ensures (p.delegate f lo hi dialect body) fun q =>
      q.canvas.text = f.text ∧ q.layout = p.layout := by
  unfold delegate
  refine .bind (Frame.enter_ensures hf hlo hhi hle dialect) fun g hg => ?_
  obtain ⟨hgf, htext, -, hghi, hd, -⟩ := hg
  dsimp only
  refine .bind (hbody g hgf htext hd (by rw [htext, hghi]; exact hseal) _
    ⟨by rw [htext]; exact hp, Layout.fits_empty⟩) fun q hq => .pure ⟨hq, rfl⟩

/-- Painting the marks of an embedded section leaves the text alone. -/
lemma text_paintRegionMarks (endTag : Mark) (element : Bool) (r : Region) (canvas : Buffer) :
    (paintRegionMarks s endTag element r canvas).text = canvas.text := by
  unfold paintRegionMarks
  split
  · rfl
  · dsimp only
    split
    · rw [Scene.text_paint, Scene.text_paint]
    · rw [Scene.text_paint]

/-- Embedded sections can be mapped in every scope, if their bodies succeed. **Proof sketch.** By the
scan the sections and their code lie in the scope, between boundaries and sealed as far as the body
needs it. The bodies run one after another and leave the layout as it is. -/
lemma mapRegions_ensures (hf : f.WellFormed) (hp : p.Fits f opened) {startTag endTag : Mark}
    (hstart : startTag.IsPlain) (hend : endTag.IsPlain) {element : Bool} (needsSeal : Bool)
    (name : String) {dialect : Dialect} {body : Frame → Pass → Checked Pass}
    (hopened : opened = true → element = false ∧ startTag.StartsSealed)
    (hbody : BodySucceeds f.text dialect needsSeal body)
    (hneeds : needsSeal = true → opened = true ∧ endTag.StartsSealed ∧ f.text.Sealed f.hi) :
    Ensures (p.mapRegions s f startTag endTag element name dialect body) (Fits f opened) := by
  unfold mapRegions
  refine .ite (fun _ => .pure hp) fun _ => ?_
  refine .bind (Frame.regions_ensures hf p.layout hstart hend name hopened hp.layout.embedded)
    fun h hh => ?_
  obtain ⟨-, hfound, hfits⟩ := hh
  refine .foldlM_array ⟨hp.text, { hp.layout with embedded := hfits }⟩ fun r hr q hq => ?_
  have hregion := hfound r hr
  refine (delegate_ensures hf hregion.fits.codeStartBoundary hregion.fits.codeStopBoundary
    hregion.fits.codeStart_le hbody (fun hn => ?_) ?_).mono fun q' hq' => ⟨hq'.1, ?_⟩
  · obtain ⟨h1, h2, h3⟩ := hneeds hn
    exact hregion.sealedStop h1 h2 h3
  · rw [text_paintRegionMarks]
    exact hq.text
  · rw [hq'.2]
    exact hq.layout

/-- A scope can be handed over as a whole. -/
lemma embedScope_ensures (hf : f.WellFormed) (hp : p.Fits f opened) (needsSeal : Bool)
    (name : String) {dialect : Dialect} {body : Frame → Pass → Checked Pass}
    (hbody : BodySucceeds f.text dialect needsSeal body)
    (hneeds : needsSeal = true → f.text.Sealed f.hi) :
    Ensures (p.embedScope f name dialect body) (Fits f false) := by
  unfold embedScope
  dsimp only
  refine .mono (delegate_ensures hf hf.loBoundary hf.hiBoundary hf.ordered hbody hneeds ?_)
    fun q hq => ⟨hq.1, ?_⟩
  · exact hp.text
  rw [hq.2]
  have hweak : p.layout.Fits f false := hp.layout.weaken (by simp)
  refine { hweak with embedded := ?_ }
  dsimp only
  split
  · exact hweak.embedded
  · exact hweak.embedded.add ⟨Nat.le_refl _, hf.ordered, Nat.le_refl _⟩ hf.loBoundary (by simp)

/-! ### Tokens -/

/-- Words can be painted in every scope. -/
lemma paintKeywords_ensures (hs : s.WellFormed) (hf : f.WellFormed) (ht : s.text = f.text)
    (hp : p.Fits f opened) {words : List Mark} (hw : ∀ w ∈ words, w.IsPlain) (wholeWord : Bool)
    (notAfter : List Char) (style : Style) :
    Ensures (p.paintKeywords s f words wholeWord notAfter style) (Fits f opened) := by
  unfold paintKeywords
  refine .bind (Ensures.foldlM (I := fun canvas : Buffer => canvas.text = f.text) hp.text
    fun word hword canvas hc => ?_) fun canvas hc => .pure ⟨hc, hp.layout⟩
  exact (paintOccurrences_ensures hs hf ht _ _ (hw word hword)
    (Frame.wordEnd_defined (hw word hword) _ _) _ _).mono fun c h => h.trans hc

/-- Words with suffixes can be painted in every scope. -/
lemma paintExtensible_ensures (hs : s.WellFormed) (hf : f.WellFormed) (ht : s.text = f.text)
    (hp : p.Fits f opened) {base : Mark} (hb : base.IsPlain) {suffixes : List Mark}
    (hsuffixes : ∀ m ∈ suffixes, m.IsPlain) (style : Style) :
    Ensures (p.paintExtensible s f base suffixes style) (Fits f opened) := by
  unfold paintExtensible
  exact .bind (paintOccurrences_ensures hs hf ht _ _ hb
    (Frame.extendedEnd_defined hf hb hsuffixes) _ _) fun canvas hc =>
      .pure ⟨hc.trans hp.text, hp.layout⟩

/-- Variables can be painted in every scope whose end is sealed. -/
lemma paintVariables_ensures (hs : s.WellFormed) (hf : f.WellFormed) (ht : s.text = f.text)
    (hp : p.Fits f opened) (hseal : f.text.Sealed f.hi) {sign : Char}
    (hsign : sign ≠ '\n') (ends exceptions : List Char) :
    Ensures (p.paintVariables s f sign ends exceptions) (Fits f opened) := by
  unfold paintVariables
  exact .bind (paintTokens_ensures hs hf ht
    (Frame.variableStep_scans hf _ hsign ends exceptions hseal) _ _) fun canvas hc =>
      .pure ⟨hc.trans hp.text, hp.layout⟩

/-- Single bytes can be painted in every scope. -/
lemma paintMarks_ensures (hs : s.WellFormed) (hf : f.WellFormed) (ht : s.text = f.text)
    (hp : p.Fits f opened) {bytes : List UInt8} (hb : ∀ b ∈ bytes, b < 0x80 ∧ b ≠ newline)
    (style : Style) :
    Ensures (p.paintMarks s f bytes style) (Fits f opened) := by
  unfold paintMarks
  exact .bind (paintTokens_ensures hs hf ht (Frame.markStep_scans hf hb) _ _) fun canvas hc =>
    .pure ⟨hc.trans hp.text, hp.layout⟩

end Pass

/-! ### Programs -/

/-- The marks that open heredocs are plain. -/
def Dialect.isPlain (d : Dialect) : Bool :=
  d.heredocs.all fun r => decide r.opener.IsPlain

namespace Primitive

mutual

/-- Whether a primitive looks for names behind a sign, in the scope or in an embedded section that
may end with the scope. -/
def needsSeal : Primitive → Bool
  | .signedVariable .. => true
  | .innerSection _ _ _ _ _ body => needsSealAll body
  | .embedScope _ _ body => needsSealAll body
  | .ifContains _ yes no => needsSealAll yes || needsSealAll no
  | _ => false

/-- Whether one of the primitives looks for names behind a sign. -/
def needsSealAll : List Primitive → Bool
  | [] => false
  | primitive :: rest => needsSeal primitive || needsSealAll rest

end

/-- Whether no embedded section that the primitive maps can start with a hash sign. -/
def keepsOpened : Primitive → Bool
  | .innerSection startTag _ element _ _ _ => !element && decide startTag.StartsSealed
  | .embedScope .. => false
  | .ifContains .. => false
  | _ => true

mutual

/-- Whether the marks of a primitive are plain, and the ends of the sections that it hands to
another language are sealed as far as that language needs it. `opened` tells whether no embedded
section so far starts with a hash sign. -/
def sound (opened : Bool) : Primitive → Bool
  | .lineComments openers => openers.all fun m => decide m.IsPlain
  | .blockComments opener closer _ => decide opener.IsPlain && decide closer.IsPlain
  | .keywords words _ _ _ => words.all fun m => decide m.IsPlain
  | .extensibleKeyword base suffixes _ =>
    decide base.IsPlain && suffixes.all fun m => decide m.IsPlain
  | .signedVariable sign _ _ => sign != '\n'
  | .marks bytes _ => bytes.all fun b => b < 0x80 && b != newline
  | .innerSection startTag endTag element _ dialect body =>
    decide startTag.IsPlain && decide endTag.IsPlain && dialect.isPlain && soundAll true body &&
      (!needsSealAll body ||
        opened && !element && decide startTag.StartsSealed && decide endTag.StartsSealed)
  | .embedScope _ dialect body => dialect.isPlain && soundAll true body
  | .ifContains _ yes no => soundAll opened yes && soundAll opened no
  | _ => true

/-- Whether all primitives of a program are sound where they stand. -/
def soundAll (opened : Bool) : List Primitive → Bool
  | [] => true
  | primitive :: rest => sound opened primitive && soundAll (opened && keepsOpened primitive) rest

end

end Primitive

namespace Primitive

/-! ### Programs one primitive at a time -/

/-- A pass that has asked for a repair does nothing more. -/
lemma runAll_of_repair {p : Pass} {reason : RepairReason} (hp : p.repair = some reason)
    (program : List Primitive) (f : Frame) : runAll s program f p = .ok p := by
  cases program with
  | nil => simp only [runAll]
  | cons primitive rest => simp only [runAll, hp]

/-- A program runs its first primitive, and then the rest. -/
lemma runAll_cons {p : Pass} (hp : p.repair = none) (primitive : Primitive)
    (rest : List Primitive) (f : Frame) :
    runAll s (primitive :: rest) f p = run s primitive f p >>= runAll s rest f := by
  simp only [runAll, hp]
  cases run s primitive f p with
  | error fault => rfl
  | ok q => rfl

/-- A program of one primitive runs this primitive. -/
lemma runAll_singleton {p : Pass} (hp : p.repair = none) (primitive : Primitive) (f : Frame) :
    runAll s [primitive] f p = run s primitive f p := by
  rw [runAll_cons hp]
  cases run s primitive f p with
  | error fault => rfl
  | ok q =>
    show runAll s [] f q = _
    simp only [runAll]

/-- A run stops at once because of a repair, or it takes one step and goes on. -/
lemma eq_or_of_runAll_cons {primitive : Primitive} {rest : List Primitive} {f : Frame} {p q : Pass}
    (h : runAll s (primitive :: rest) f p = .ok q) :
    p = q ∨ ∃ p₁, run s primitive f p = .ok p₁ ∧ runAll s rest f p₁ = .ok q := by
  cases hrepair : p.repair with
  | some reason =>
    rw [runAll_of_repair hrepair] at h
    exact .inl (Except.ok.inj h)
  | none =>
    rw [runAll_cons hrepair] at h
    exact .inr (bind_eq_ok.mp h)

/-- A program keeps what each of its primitives keeps.

**Proof sketch.** Induction on the program. -/
lemma runAll_keeps {P : Pass → Prop} {program : List Primitive} {f : Frame}
    (hstep : ∀ primitive ∈ program, ∀ p q, P p → run s primitive f p = .ok q → P q) {p q : Pass}
    (hp : P p) (h : runAll s program f p = .ok q) : P q := by
  induction program generalizing p with
  | nil =>
    simp only [runAll] at h
    cases h
    exact hp
  | cons primitive rest ih =>
    obtain ⟨hfirst, hrest⟩ := List.forall_mem_cons.mp hstep
    rcases eq_or_of_runAll_cons h with rfl | ⟨p₁, hp₁, h⟩
    · exact hp
    · exact ih hrest (hfirst p p₁ hp hp₁) h

/-- A program runs its first half, and then the other one. -/
lemma runAll_append (before after : List Primitive) (f : Frame) (p : Pass) :
    runAll s (before ++ after) f p = runAll s before f p >>= runAll s after f := by
  induction before generalizing p with
  | nil =>
    simp only [runAll]
    rfl
  | cons primitive rest ih =>
    cases hp : p.repair with
    | some reason =>
      rw [runAll_of_repair hp, runAll_of_repair hp]
      show _ = runAll s after f p
      rw [runAll_of_repair hp]
    | none =>
      rw [List.cons_append, runAll_cons hp, runAll_cons hp, bind_assoc]
      exact congrArg _ (funext ih)

/-! ### The induction over a program -/

mutual

/-- A sound primitive succeeds on every scope, and what it has mapped then lies in the scope.

**Proof sketch.** One case for each primitive, each of which is a lemma. The body of an embedded
section is a program of its own, which the induction covers. -/
theorem run_ensures (hs : s.WellFormed) :
    ∀ (primitive : Primitive) (opened : Bool) (f : Frame) (p : Pass),
      sound opened primitive = true → f.WellFormed → s.text = f.text →
      f.dialect.isPlain = true → (needsSeal primitive = true → f.text.Sealed f.hi) →
      p.Fits f opened →
      Ensures (run s primitive f p) (Pass.Fits f (opened && keepsOpened primitive))
  | .setCondition condition, opened, f, p, _, _, _, _, _, hp => by
    simp only [run, keepsOpened, Bool.and_true]
    exact .ok ⟨hp.text, hp.layout⟩
  | .quotes singleLine, opened, f, p, _, hf, _, _, _, hp => by
    simp only [run, keepsOpened, Bool.and_true]
    exact Pass.mapQuotes_ensures hf hp singleLine
  | .lineComments openers, opened, f, p, h, hf, _, _, _, hp => by
    simp only [run, keepsOpened, Bool.and_true]
    simp only [sound, List.all_eq_true, decide_eq_true_eq] at h
    exact Pass.mapLineComments_ensures hf hp h
  | .blockComments opener closer ignoreQuoted, opened, f, p, h, hf, _, _, _, hp => by
    simp only [run, keepsOpened, Bool.and_true]
    simp only [sound, Bool.and_eq_true, decide_eq_true_eq] at h
    exact Pass.mapBlockComments_ensures hf hp h.1 h.2 ignoreQuoted
  | .keywords words wholeWord notAfter style, opened, f, p, h, hf, ht, _, _, hp => by
    simp only [run, keepsOpened, Bool.and_true]
    simp only [sound, List.all_eq_true, decide_eq_true_eq] at h
    exact Pass.paintKeywords_ensures hs hf ht hp h wholeWord notAfter style
  | .extensibleKeyword base suffixes style, opened, f, p, h, hf, ht, _, _, hp => by
    simp only [run, keepsOpened, Bool.and_true]
    simp only [sound, Bool.and_eq_true, decide_eq_true_eq] at h
    exact Pass.paintExtensible_ensures hs hf ht hp h.1 (by simpa using h.2) style
  | .signedVariable sign ends exceptions, opened, f, p, h, hf, ht, _, hseal, hp => by
    simp only [run, keepsOpened, Bool.and_true]
    simp only [sound, bne_iff_ne] at h
    exact Pass.paintVariables_ensures hs hf ht hp (hseal rfl) h ends exceptions
  | .marks bytes style, opened, f, p, h, hf, ht, _, _, hp => by
    simp only [run, keepsOpened, Bool.and_true]
    simp only [sound, List.all_eq_true, Bool.and_eq_true, decide_eq_true_eq, bne_iff_ne] at h
    exact Pass.paintMarks_ensures hs hf ht hp h style
  | .heredocs, opened, f, p, _, hf, _, hd, _, hp => by
    simp only [run, keepsOpened, Bool.and_true]
    refine Pass.mapHeredocs_ensures hf hp fun r hr => ?_
    simpa [Dialect.isPlain, hr] using hd
  | .quoteOperators, opened, f, p, _, hf, _, _, _, hp => by
    simp only [run, keepsOpened, Bool.and_true]
    exact Pass.mapOperators_ensures hf hp
  | .tags, opened, f, p, _, hf, _, _, _, hp => by
    simp only [run, keepsOpened, Bool.and_true]
    exact Pass.mapTags_ensures hf hp
  | .innerSection startTag endTag element name dialect body, opened, f, p, h, hf, ht, _, hseal,
      hp => by
    simp only [run]
    simp only [sound, Bool.and_eq_true, Bool.or_eq_true, decide_eq_true_eq, Bool.not_eq_true'] at h
    obtain ⟨⟨⟨⟨hstart, hend⟩, hd⟩, hbody⟩, hneeds⟩ := h
    refine Pass.mapRegions_ensures hf
      ⟨hp.text, hp.layout.weaken fun ho => (Bool.and_eq_true_iff.mp ho).1⟩ hstart hend
      (needsSealAll body) name ?_ ?_ ?_
    · intro ho
      simpa [keepsOpened] using (Bool.and_eq_true_iff.mp ho).2
    · -- the body is a shorter program, run in the scope of the section
      intro g hg hgt hgd hgs q hq
      subst hgd
      exact (runAll_ensures hs body true g q hbody hg (ht.trans hgt.symm) hd hgs hq).mono
        fun q' hq' => hq'.text.trans hgt
    · -- where names can be cut off, the sections have to be sealed
      intro hn
      rcases hneeds with h | ⟨⟨⟨ho, hel⟩, hst⟩, hen⟩
      · rw [hn] at h
        cases h
      · exact ⟨by simp [keepsOpened, ho, hel, hst], hen, hseal hn⟩
  | .embedScope name dialect body, opened, f, p, h, hf, ht, _, hseal, hp => by
    simp only [run, keepsOpened, Bool.and_false]
    simp only [sound, Bool.and_eq_true] at h
    simp only [needsSeal] at hseal
    refine Pass.embedScope_ensures hf hp (needsSealAll body) name ?_ hseal
    intro g hg hgt hgd hgs q hq
    subst hgd
    exact (runAll_ensures hs body true g q h.2 hg (ht.trans hgt.symm) h.1 hgs hq).mono
      fun q' hq' => hq'.text.trans hgt
  | .ifContains needle yes no, opened, f, p, h, hf, ht, hd, hseal, hp => by
    simp only [run, keepsOpened, Bool.and_false]
    simp only [sound, Bool.and_eq_true] at h
    simp only [needsSeal, Bool.or_eq_true] at hseal
    refine .ite (fun _ => ?_) fun _ => ?_
    · exact runAll_ensures hs yes opened f p h.1 hf ht hd (fun hn => hseal (.inl hn)) hp
    · exact runAll_ensures hs no opened f p h.2 hf ht hd (fun hn => hseal (.inr hn)) hp

/-- A sound program succeeds on every scope.

**Proof sketch.** Induction on the program, together with that on the primitives that embed other
programs. The invariant is `Pass.Fits`, which loses the promise about embedded sections with the
first primitive that does not keep it. -/
theorem runAll_ensures (hs : s.WellFormed) :
    ∀ (program : List Primitive) (opened : Bool) (f : Frame) (p : Pass),
      soundAll opened program = true → f.WellFormed → s.text = f.text →
      f.dialect.isPlain = true → (needsSealAll program = true → f.text.Sealed f.hi) →
      p.Fits f opened → Ensures (runAll s program f p) (Pass.Fits f false)
  | [], opened, f, p, _, _, _, _, _, hp => by
    simp only [runAll]
    exact .ok ⟨hp.text, hp.layout.weaken (by simp)⟩
  | primitive :: rest, opened, f, p, h, hf, ht, hd, hseal, hp => by
    simp only [soundAll, Bool.and_eq_true] at h
    simp only [needsSealAll, Bool.or_eq_true] at hseal
    cases hrepair : p.repair with
    | some reason =>
      rw [runAll_of_repair hrepair]
      exact .ok ⟨hp.text, hp.layout.weaken (by simp)⟩
    | none =>
      rw [runAll_cons hrepair]
      refine .bind (run_ensures hs primitive opened f p h.1 hf ht hd (fun hn => hseal (.inl hn)) hp)
        fun q hfits => ?_
      exact runAll_ensures hs rest _ f q h.2 hf ht hd (fun hn => hseal (.inr hn)) hfits

end

/-- A sound program does what the body of an embedded section has to do. -/
lemma bodySucceeds {program : List Primitive} {dialect : Dialect} (hs : s.WellFormed)
    (hd : dialect.isPlain = true) (h : soundAll true program = true) {t : Text} (ht : s.text = t) :
    Pass.BodySucceeds t dialect (needsSealAll program) (runAll s program) := by
  intro g hg hgt hgd hgs q hq
  subst hgd
  exact (runAll_ensures hs program true g q h hg (ht.trans hgt.symm) hd hgs hq).mono
    fun q' hq' => hq'.text.trans hgt

end Primitive

end LexPaint
