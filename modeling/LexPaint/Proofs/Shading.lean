import LexPaint.Proofs.BlockEnds
import LexPaint.Proofs.PassFrame
import LexPaint.Proofs.TokenPainting
import Mathlib.Data.List.Flatten

set_option relaxedAutoImplicit false
set_option autoImplicit false

/-!
# What mapping leaves on the canvas

A program first maps the literals of its scope, sort after sort, and paints them as it goes. Strings
come before comments. So once the literals are mapped, every offset in a literal shows the style that
the layout gives to it, any other one shows what it has shown before, and the sets are in the order that
the queries need.

## Main definitions

* `Layout.shadeOver`: what shows at an offset once the literals are painted.
* `Primitive.Stage`, `Primitive.stageAfter`: how far a program has come with mapping.
* `Primitive.mapping`: the stage that a program reaches, and the rest of it.
* `Pass.Mapped`: what holds of a pass at a stage.

## Main results

* `Primitive.run_mapped`: one primitive that maps literals.
* `Primitive.runAll_mapped`: a program maps literals first and then does the rest.
-/

namespace LexPaint

/-! ### Shades -/

namespace Layout

/-- What the literals of a layout show at an offset that has shown something before. -/
def shadeOver (l : Layout) (pos : Nat) (under : Option Style) : Option Style :=
  if l.shade pos = .plain then under else some (l.shade pos)

/-- Over a plain style an offset shows its shade. -/
lemma shadeOver_plain (l : Layout) (pos : Nat) : l.shadeOver pos (some .plain) = some (l.shade pos) := by
  unfold shadeOver
  split
  · rename_i hplain
    rw [hplain]
  · rfl

variable {l l' : Layout} {found : List Interval} {sort : RepairReason} {pos : Nat}

/-- An offset is covered by a sort if the new intervals are of this sort and cover it, or if it was
covered before. -/
lemma coversSort_of_mem (hmem : ∀ iv, iv ∈ l'.allIntervals ↔ iv ∈ found ∨ iv ∈ l.allIntervals)
    (hsort : ∀ iv ∈ found, iv.kind.sort = sort) (other : RepairReason) :
    l'.coversSort other pos =
      (sort == other && LexPaint.covers found (fun _ => true) pos || l.coversSort other pos) := by
  unfold coversSort covers
  rw [covers_of_mem hmem]
  congr 1
  by_cases h : sort = other
  · subst h
    rw [BEq.rfl, Bool.true_and]
    exact covers_congr fun iv hiv => by simp [hsort iv hiv]
  · rw [beq_false_of_ne h, Bool.false_and]
    exact covers_eq_false fun iv hiv => by simpa [hsort iv hiv] using h

/-- New comments hide everything. -/
lemma shade_of_comment (hmem : ∀ iv, iv ∈ l'.allIntervals ↔ iv ∈ found ∨ iv ∈ l.allIntervals)
    (hsort : ∀ iv ∈ found, iv.kind.sort = sort)
    (hcomment : sort = .lineComments ∨ sort = .blockComments) :
    l'.shade pos =
      if LexPaint.covers found (fun _ => true) pos then .comment else l.shade pos := by
  unfold shade
  simp only [coversSort_of_mem hmem hsort]
  rcases hcomment with rfl | rfl
  all_goals cases LexPaint.covers found (fun _ => true) pos <;> simp

/-- New strings show as long as there are no comments. -/
lemma shade_of_string (hmem : ∀ iv, iv ∈ l'.allIntervals ↔ iv ∈ found ∨ iv ∈ l.allIntervals)
    (hsort : ∀ iv ∈ found, iv.kind.sort = sort)
    (hstring : sort = .quotes ∨ sort = .heredocs ∨ sort = .quoteOperators)
    (hlines : l.coversSort .lineComments pos = false)
    (hblocks : l.coversSort .blockComments pos = false) :
    l'.shade pos =
      if LexPaint.covers found (fun _ => true) pos then .string else l.shade pos := by
  unfold shade
  simp only [coversSort_of_mem hmem hsort, hlines, hblocks]
  rcases hstring with rfl | rfl | rfl
  all_goals cases LexPaint.covers found (fun _ => true) pos <;> simp

end Layout

namespace Scene

/-- Painting intervals shows their style where they are. -/
lemma styles_paintAll {t : Text} {c : Buffer} (hc : c.text = t) (found : Array Interval)
    (style : Style) {i : Nat} (hi : i < t.size) :
    ((document t).paintAll c found style).styles[i]? =
      if covers found.toList (fun _ => true) i then some style else c.styles[i]? := by
  unfold paintAll
  rw [← Array.foldl_toList,
    styles_foldl_paint (fun iv : Interval => (iv.start, iv.stop)) hc found.toList style hi]
  simp [covers, Interval.contains]

end Scene

/-! ### Stages -/

namespace Primitive

/-- How far the literals of a scope have been mapped. -/
structure Stage where
  /-- How many sorts of literals were mapped, in the order in which programs map them: heredocs,
  quote operators, strings, line comments and block comments. -/
  rank : Nat
  /-- Whether quote operators were mapped. -/
  operators : Bool
  /-- The marks of the block comments that were mapped. -/
  blocks : List (Mark × Mark)
  /-- The condition for the next primitive. -/
  due : Condition

/-- Nothing was mapped. -/
def Stage.start : Stage :=
  ⟨0, false, [], .unconditional⟩

/-- The stage behind a primitive that maps literals, if it comes in order. -/
def stageAfter (stage : Stage) : Primitive → Option Stage
  | .setCondition next => some { stage with due := next }
  | .heredocs => if stage.rank = 0 then some { stage with rank := 1 } else none
  | .quoteOperators =>
    if stage.rank ≤ 1 then some { stage with rank := 2, operators := true } else none
  | .quotes _ => if stage.rank ≤ 2 then some { stage with rank := 3, due := .unconditional } else none
  | .lineComments _ =>
    if stage.rank ≤ 3 then some { stage with rank := 4, due := .unconditional } else none
  | .blockComments opener closer _ =>
    if stage.blocks.all (fun m =>
        Mark.endTogether m (opener, closer) && Mark.endTogether (opener, closer) m) then
      some { stage with rank := 5, blocks := stage.blocks ++ [(opener, closer)],
                        due := .unconditional }
    else none
  | _ => none

/-- The stage that a program reaches by mapping literals, and what is left of it then. -/
def mapping (stage : Stage) : List Primitive → Stage × List Primitive
  | [] => (stage, [])
  | primitive :: rest =>
    match stageAfter stage primitive with
    | some next => mapping next rest
    | none => (stage, primitive :: rest)

end Primitive

/-- The intervals of a heredoc in its set: an empty body is left out. -/
def Frame.heredocEntries (found : Interval × Interval) : List Interval :=
  if found.2.isEmpty then [found.1] else [found.1, found.2]

/-- The entries of a heredoc are its intervals, up to an empty body. -/
lemma Frame.heredocEntries_sublist (found : Interval × Interval) :
    (Frame.heredocEntries found).Sublist (Frame.heredocIntervals found) := by
  unfold heredocEntries heredocIntervals
  split
  · exact (List.nil_sublist _).cons_cons _
  · exact List.Sublist.refl _

/-- The heredocs of a layout are those that a sweep over the scope finds. -/
def Frame.HeredocsSwept (f : Frame) (l : Layout) : Prop :=
  ∃ rules harvest, f.dialect.heredocs = some rules ∧
    Sweep.collect (f.heredocStep rules) f.scope.size 0 f.cursor = .ok harvest ∧
    l.composite.heredocs.intervals.toList = harvest.items.toList.flatMap Frame.heredocEntries

/-- What holds of a full pass over a scope once its program has come to a stage, on a canvas that has
looked like `base` before. -/
structure Pass.Mapped (f : Frame) (base : Buffer) (stage : Primitive.Stage) (p : Pass) : Prop where
  text : p.canvas.text = f.text
  settled : p.layout.Settled f.lo f.hi
  noHeredocs : stage.rank = 0 → p.layout.composite.heredocs.intervals = #[]
  noOperators : stage.rank ≤ 1 ∨ stage.operators = false →
    p.layout.composite.operators.intervals = #[]
  noQuotes : stage.rank ≤ 2 → p.layout.quotes.intervals = #[]
  noLineComments : stage.rank ≤ 3 → p.layout.lineComments.intervals = #[]
  noBlocks : stage.rank ≤ 4 → stage.blocks = []
  blocks : ∀ iv ∈ p.layout.blockComments.intervals, ∃ m ∈ stage.blocks, f.IsBlock m.1 m.2 iv
  heredocs : p.layout.composite.heredocs.intervals = #[] ∨ f.HeredocsSwept p.layout
  operators : ∀ iv ∈ p.layout.composite.operators.intervals,
    (p.layout.composite.heredocs.inString iv.start).isNone = true
  condition : p.condition = stage.due
  quiet : p.repair = none
  shaded : ∀ i, i < f.text.size →
    p.canvas.styles[i]? = p.layout.shadeOver i base.styles[i]?

namespace Pass

variable {f : Frame} {opened : Bool} {p q : Pass} {stage : Primitive.Stage} {base : Buffer}

/-! ### What a primitive maps -/

/-- What mapping strings does to a pass over a scope. -/
lemma mapQuotes_eq_ok (hf : f.WellFormed) {singleLine : Bool}
    (h : p.mapQuotes (.document f.text) f singleLine = .ok q) :
    ∃ found tested, Tiles f.lo f.hi found.toList ∧ (∀ iv ∈ found, iv.kind.sort = .quotes) ∧
      q = { p with
        canvas := (Scene.document f.text).paintAll p.canvas found .string
        layout := { p.layout with
          quotes := (p.layout.quotes.addAll found).count tested found.size }
        condition := .unconditional } := by
  unfold mapQuotes at h
  obtain ⟨_, -, h⟩ := bind_eq_ok.mp h
  obtain ⟨harvest, hharvest, h⟩ := bind_eq_ok.mp h
  obtain ⟨htiles, hsort⟩ := (Frame.quotes_ensures hf _ _ singleLine).elim hharvest
  dsimp only at h
  rw [repairIf_of_not_detect rfl] at h
  cases h
  exact ⟨_, _, htiles, hsort, rfl⟩

/-- What mapping line comments does to a pass over a scope. -/
lemma mapLineComments_eq_ok (hf : f.WellFormed) {marks : List Mark} (hm : ∀ m ∈ marks, m.IsPlain)
    (h : p.mapLineComments (.document f.text) f marks = .ok q) :
    ∃ found tested, Tiles f.lo f.hi found.toList ∧ (∀ iv ∈ found, iv.kind = .lineComment) ∧
      q = { p with
        canvas := (Scene.document f.text).paintAll p.canvas found .comment
        layout := { p.layout with
          lineComments := (p.layout.lineComments.addAll found).count tested found.size
          commentStarts := p.layout.commentStarts ++ found.map Interval.start }
        condition := .unconditional } := by
  unfold mapLineComments at h
  obtain ⟨harvest, hharvest, h⟩ := bind_eq_ok.mp h
  obtain ⟨htiles, hkind⟩ := (Frame.lineComments_ensures hf _ _ hm).elim hharvest
  dsimp only at h
  rw [repairIf_of_not_detect rfl] at h
  cases h
  exact ⟨_, _, htiles, fun iv hiv => (hkind iv hiv).2, rfl⟩

/-- What mapping block comments does to a pass over a scope. -/
lemma mapBlockComments_eq_ok (hf : f.WellFormed) (hp : p.Fits f opened) {opener closer : Mark}
    (hopener : opener.IsPlain) (hcloser : closer.IsPlain) {ignoreQuoted : Bool}
    (h : p.mapBlockComments (.document f.text) f opener closer ignoreQuoted = .ok q) :
    ∃ found, Tiles f.lo f.hi found.toList ∧ (∀ iv ∈ found, f.IsBlock opener closer iv) ∧
      q = { p with
        canvas := (Scene.document f.text).paintAll p.canvas found .comment
        layout := { p.layout with blockComments := p.layout.blockComments.addAll found }
        condition := .unconditional } := by
  unfold mapBlockComments at h
  obtain ⟨harvest, hharvest, h⟩ := bind_eq_ok.mp h
  obtain ⟨htiles, hblocks⟩ := (Frame.blockComments_ensures hf _ hopener hcloser ignoreQuoted
    hp.layout.starts _).elim hharvest
  cases h
  exact ⟨_, htiles, hblocks, rfl⟩

/-- Painting heredocs is painting their entries. -/
lemma foldl_paint_heredocs (s : Scene) (found : List (Interval × Interval)) (canvas : Buffer)
    (style : Style) :
    found.foldl (fun canvas x => s.paint (s.paint canvas x.1.start x.1.stop style)
        x.2.start x.2.stop style) canvas =
      s.paintAll canvas (found.flatMap Frame.heredocEntries).toArray style := by
  unfold Scene.paintAll
  rw [← Array.foldl_toList]
  induction found generalizing canvas with
  | nil => rfl
  | cons x rest ih =>
    rw [List.foldl_cons, ih, List.flatMap_cons, List.foldl_append]
    congr 1
    unfold Frame.heredocEntries
    split
    · rename_i hempty
      exact s.paint_of_le _ (of_decide_eq_true hempty) style
    · rfl

/-- Adding heredocs is adding their entries. -/
lemma foldl_addHeredoc (found : List (Interval × Interval)) (set : IntervalSet) :
    found.foldl addHeredoc set = (found.flatMap Frame.heredocEntries).foldl .add set := by
  induction found generalizing set with
  | nil => rfl
  | cons x rest ih =>
    rw [List.foldl_cons, ih, List.flatMap_cons, List.foldl_append]
    congr 1
    unfold addHeredoc Frame.heredocEntries
    dsimp only
    split <;> rfl

/-- What mapping heredocs does to a pass over a scope. -/
lemma mapHeredocs_eq_ok (hf : f.WellFormed)
    (hd : ∀ r, f.dialect.heredocs = some r → r.opener.IsPlain)
    (h : p.mapHeredocs (.document f.text) f = .ok q) :
    q = p ∨ ∃ rules harvest tested accepted, f.dialect.heredocs = some rules ∧
      Sweep.collect (f.heredocStep rules) f.scope.size 0 f.cursor = .ok harvest ∧
      Tiles f.lo f.hi (harvest.items.toList.flatMap Frame.heredocIntervals) ∧
      (∀ found ∈ harvest.items, f.IsHeredoc rules found) ∧
      q = { p with
        canvas := (Scene.document f.text).paintAll p.canvas
          (harvest.items.toList.flatMap Frame.heredocEntries).toArray .string
        layout := { p.layout with
          composite := { p.layout.composite with
            heredocs := ((harvest.items.toList.flatMap Frame.heredocEntries).foldl .add
              p.layout.composite.heredocs).count tested accepted } } } := by
  rcases mapHeredocs_cases h with
    ⟨-, rfl⟩ | ⟨rules, harvest, set, changed, hrules, hharvest, hset, -, rfl⟩
  · exact .inl rfl
  · obtain ⟨htiles, hparts⟩ := (Frame.heredocs_ensures hf (hd rules hrules)).elim hharvest
    rw [← Array.foldl_toList, foldl_addHeredoc] at hset
    rw [repairIf_of_not_detect rfl, ← Array.foldl_toList, foldl_paint_heredocs]
    exact .inr ⟨rules, harvest, _, _, hrules, hharvest, htiles, hparts, by rw [hset]⟩

/-- What mapping quote operators does to a pass over a scope. -/
lemma mapOperators_eq_ok (hf : f.WellFormed) (h : p.mapOperators (.document f.text) f = .ok q) :
    q = p ∨ ∃ found tested accepted, Tiles f.lo f.hi found.toList ∧
      (∀ iv ∈ found, (p.layout.composite.heredocs.inString iv.start).isNone = true ∧
        iv.kind = .quoteOperator) ∧
      q = { p with
        canvas := (Scene.document f.text).paintAll p.canvas found .string
        layout := { p.layout with
          composite := { p.layout.composite with
            operators := (p.layout.composite.operators.addAll found).count tested accepted } } } := by
  rcases mapOperators_cases h with ⟨-, rfl⟩ | ⟨rules, harvest, set, changed, -, hharvest, rfl, rfl⟩
  · exact .inl rfl
  · obtain ⟨htiles, houtside⟩ := (Frame.operators_ensures hf _ rules).elim hharvest
    rw [repairIf_of_not_detect rfl]
    exact .inr ⟨harvest.items, _, _, htiles, houtside, rfl⟩

/-! ### One stage after the other -/

namespace Mapped

/-- On a plain canvas every offset shows its shade. -/
lemma shaded_of_plain (hp : p.Mapped f base stage)
    (hplain : ∀ i, i < f.text.size → base.styles[i]? = some .plain) (i : Nat) (hi : i < f.text.size) :
    p.canvas.styles[i]? = some (p.layout.shade i) := by
  rw [hp.shaded i hi, hplain i hi, Layout.shadeOver_plain]

/-- Before comments are mapped no offset lies in one. -/
lemma fresh_comments (hp : p.Mapped f base stage) (hrank : stage.rank ≤ 3) (i : Nat) :
    p.layout.coversSort .lineComments i = false ∧
      p.layout.coversSort .blockComments i = false := by
  have hlines : (RepairReason.lineComments, p.layout.lineComments) ∈ p.layout.sets := by
    simp [Layout.sets]
  have hblocks : (RepairReason.blockComments, p.layout.blockComments) ∈ p.layout.sets := by
    simp [Layout.sets]
  have hnone : p.layout.blockComments.intervals = #[] := by
    refine Array.eq_empty_iff_forall_not_mem.mpr fun iv hiv => ?_
    obtain ⟨m, hm, -⟩ := hp.blocks iv hiv
    rw [hp.noBlocks (by omega)] at hm
    cases hm
  constructor
  · rw [Layout.coversSort, hp.settled.covers_sort hlines (by simp), hp.noLineComments hrank]
    rfl
  · rw [Layout.coversSort, hp.settled.covers_sort hblocks (by simp), hnone]
    rfl

/-- New strings keep the canvas shaded, as long as there are no comments. -/
lemma shaded_string (hp : p.Mapped f base stage) (hrank : stage.rank ≤ 3) {l' : Layout}
    {found : Array Interval} {sort : RepairReason}
    (hmem : ∀ iv, iv ∈ l'.allIntervals ↔ iv ∈ found.toList ∨ iv ∈ p.layout.allIntervals)
    (hsort : ∀ iv ∈ found.toList, iv.kind.sort = sort)
    (hstring : sort = .quotes ∨ sort = .heredocs ∨ sort = .quoteOperators) (i : Nat)
    (hi : i < f.text.size) :
    ((Scene.document f.text).paintAll p.canvas found .string).styles[i]? =
      l'.shadeOver i base.styles[i]? := by
  obtain ⟨hlines, hblocks⟩ := hp.fresh_comments hrank i
  rw [Scene.styles_paintAll hp.text found _ hi, hp.shaded i hi]
  unfold Layout.shadeOver
  rw [Layout.shade_of_string hmem hsort hstring hlines hblocks]
  split <;> rfl

/-- New comments keep the canvas shaded. -/
lemma shaded_comment (hp : p.Mapped f base stage) {l' : Layout} {found : Array Interval}
    {sort : RepairReason}
    (hmem : ∀ iv, iv ∈ l'.allIntervals ↔ iv ∈ found.toList ∨ iv ∈ p.layout.allIntervals)
    (hsort : ∀ iv ∈ found.toList, iv.kind.sort = sort)
    (hcomment : sort = .lineComments ∨ sort = .blockComments) (i : Nat) (hi : i < f.text.size) :
    ((Scene.document f.text).paintAll p.canvas found .comment).styles[i]? =
      l'.shadeOver i base.styles[i]? := by
  rw [Scene.styles_paintAll hp.text found _ hi, hp.shaded i hi]
  unfold Layout.shadeOver
  rw [Layout.shade_of_comment hmem hsort hcomment]
  split <;> rfl

/-- All intervals have the sort of their set, set by set. -/
lemma sorts_iff {l : Layout} :
    (∀ entry ∈ l.sets, ∀ iv ∈ entry.2.intervals, iv.kind.sort = entry.1) ↔
      (∀ iv ∈ l.quotes.intervals, iv.kind.sort = .quotes) ∧
      (∀ iv ∈ l.lineComments.intervals, iv.kind.sort = .lineComments) ∧
      (∀ iv ∈ l.blockComments.intervals, iv.kind.sort = .blockComments) ∧
      (∀ iv ∈ l.composite.heredocs.intervals, iv.kind.sort = .heredocs) ∧
      (∀ iv ∈ l.composite.operators.intervals, iv.kind.sort = .quoteOperators) ∧
      (∀ iv ∈ l.tags.intervals, iv.kind.sort = .tags) ∧
      (∀ iv ∈ l.attributeValues.intervals, iv.kind.sort = .attributeValues) ∧
      ∀ iv ∈ l.embedded.intervals, iv.kind.sort = .embeddedSections :=
  Layout.forall_sets (P := fun sort set => ∀ iv ∈ set.intervals, iv.kind.sort = sort)

/-- Strings are mapped once, while there are no comments.

**Proof sketch.** New strings show over everything that was mapped before, as there are no comments.
The set was empty, so it holds them in their order. -/
lemma addQuotes (hp : p.Mapped f base stage) (hrank : stage.rank ≤ 2) {found : Array Interval}
    (htiles : Tiles f.lo f.hi found.toList) (hsort : ∀ iv ∈ found, iv.kind.sort = .quotes)
    (tested accepted : Nat) :
    Mapped f base { stage with rank := 3, due := .unconditional } { p with
      canvas := (Scene.document f.text).paintAll p.canvas found .string
      layout := { p.layout with quotes := (p.layout.quotes.addAll found).count tested accepted }
      condition := .unconditional } := by
  have hitems := IntervalSet.toList_addAll (hp.noQuotes hrank) (htiles.nested.imp And.left)
  have hsort' : ∀ iv ∈ found.toList, iv.kind.sort = .quotes := by simpa using hsort
  refine { hp with
    text := (Scene.text_paintAll _ _ _ _).trans hp.text
    settled := ?_
    noHeredocs := fun h => absurd (show 3 = 0 from h) (by decide)
    noOperators := fun h => hp.noOperators (h.imp (fun h => absurd (show 3 ≤ 1 from h) (by decide)) id)
    noQuotes := fun h => absurd (show 3 ≤ 2 from h) (by decide)
    noLineComments := fun _ => hp.noLineComments (by omega)
    noBlocks := fun _ => hp.noBlocks (by omega)
    condition := rfl
    shaded := hp.shaded_string (by omega) (fun iv => ?_) hsort' (.inl rfl) }
  · obtain ⟨-, hsorts⟩ := sorts_iff.mp hp.settled.sorts
    refine { hp.settled with sorts := sorts_iff.mpr ⟨fun iv hiv => ?_, hsorts⟩, quotes := ?_ }
    · have hiv : iv ∈ (p.layout.quotes.addAll found).intervals.toList :=
        Array.mem_toList_iff.mpr hiv
      rw [hitems] at hiv
      exact hsort' iv hiv
    · show Tiles f.lo f.hi (p.layout.quotes.addAll found).intervals.toList
      rwa [hitems]
  · simp only [Layout.mem_allIntervals, IntervalSet.count, IntervalSet.mem_addAll,
      Array.mem_toList_iff]
    grind

/-- Line comments are mapped once, behind the strings.

**Proof sketch.** Comments show over everything that was mapped before. The set was empty, so it
holds them in their order. -/
lemma addLineComments (hp : p.Mapped f base stage) (hrank : stage.rank ≤ 3) {found : Array Interval}
    (htiles : Tiles f.lo f.hi found.toList) (hkind : ∀ iv ∈ found, iv.kind = .lineComment)
    (tested accepted : Nat) (starts : Array Nat) :
    Mapped f base { stage with rank := 4, due := .unconditional } { p with
      canvas := (Scene.document f.text).paintAll p.canvas found .comment
      layout := { p.layout with
        lineComments := (p.layout.lineComments.addAll found).count tested accepted
        commentStarts := starts }
      condition := .unconditional } := by
  have hitems := IntervalSet.toList_addAll (hp.noLineComments hrank) (htiles.nested.imp And.left)
  have hsort : ∀ iv ∈ found.toList, iv.kind.sort = .lineComments := by
    intro iv hiv
    rw [hkind iv (by simpa using hiv)]
    rfl
  refine { hp with
    text := (Scene.text_paintAll _ _ _ _).trans hp.text
    settled := ?_
    noHeredocs := fun h => absurd (show 4 = 0 from h) (by decide)
    noOperators := fun h => hp.noOperators (h.imp (fun h => absurd (show 4 ≤ 1 from h) (by decide)) id)
    noQuotes := fun h => absurd (show 4 ≤ 2 from h) (by decide)
    noLineComments := fun h => absurd (show 4 ≤ 3 from h) (by decide)
    noBlocks := fun _ => hp.noBlocks (by omega)
    condition := rfl
    shaded := hp.shaded_comment (fun iv => ?_) hsort (.inl rfl) }
  · -- the other sets are as they were
    obtain ⟨hquotes, -, hsorts⟩ := sorts_iff.mp hp.settled.sorts
    refine { hp.settled with
      sorts := sorts_iff.mpr ⟨hquotes, fun iv hiv => ?_, hsorts⟩, lineComments := ?_ }
    · have hiv : iv ∈ (p.layout.lineComments.addAll found).intervals.toList :=
        Array.mem_toList_iff.mpr hiv
      rw [hitems] at hiv
      exact hsort iv hiv
    · show Tiles f.lo f.hi (p.layout.lineComments.addAll found).intervals.toList
      rwa [hitems]
  · simp only [Layout.mem_allIntervals, IntervalSet.count, IntervalSet.mem_addAll,
      Array.mem_toList_iff]
    grind

/-- Block comments are mapped last, and between several marks if these end together.

**Proof sketch.** Comments show over everything that was mapped before. The set may hold comments of
other marks, but comments whose marks end together are apart or end together, so they stay nested. -/
lemma addBlockComments (hp : p.Mapped f base stage) {found : Array Interval} {opener closer : Mark}
    (hmarks : stage.blocks.all (fun m =>
      Mark.endTogether m (opener, closer) && Mark.endTogether (opener, closer) m) = true)
    (hfits : ∀ iv ∈ p.layout.blockComments.intervals, iv.start ≤ iv.stop)
    (htiles : Tiles f.lo f.hi found.toList) (hblocks : ∀ iv ∈ found, f.IsBlock opener closer iv) :
    Mapped f base { stage with rank := 5, blocks := stage.blocks ++ [(opener, closer)],
                               due := .unconditional } { p with
      canvas := (Scene.document f.text).paintAll p.canvas found .comment
      layout := { p.layout with blockComments := p.layout.blockComments.addAll found }
      condition := .unconditional } := by
  have hsort : ∀ iv ∈ found.toList, iv.kind.sort = .blockComments := by
    intro iv hiv
    rw [(hblocks iv (by simpa using hiv)).kind_eq]
    rfl
  refine { hp with
    text := (Scene.text_paintAll _ _ _ _).trans hp.text
    settled := ?_
    noHeredocs := fun h => absurd (show 5 = 0 from h) (by decide)
    noOperators := fun h => hp.noOperators (h.imp (fun h => absurd (show 5 ≤ 1 from h) (by decide)) id)
    noQuotes := fun h => absurd (show 5 ≤ 2 from h) (by decide)
    noLineComments := fun h => absurd (show 5 ≤ 3 from h) (by decide)
    noBlocks := fun h => absurd (show 5 ≤ 4 from h) (by decide)
    blocks := fun iv hiv => ?_
    condition := rfl
    shaded := hp.shaded_comment (fun iv => ?_) hsort (.inr rfl) }
  · obtain ⟨hquotes, hlines, hold, hsorts⟩ := sorts_iff.mp hp.settled.sorts
    refine { hp.settled with
      sorts := sorts_iff.mpr ⟨hquotes, hlines, fun iv hiv => ?_, hsorts⟩
      blockComments := Frame.nested_addAll_blocks hp.settled.blockComments hfits hp.blocks htiles
        hblocks hmarks }
    rcases IntervalSet.mem_addAll.mp hiv with hiv | hiv
    · exact hsort iv (by simpa using hiv)
    · exact hold iv hiv
  · rcases IntervalSet.mem_addAll.mp hiv with hiv | hiv
    · exact ⟨(opener, closer), by simp, hblocks iv hiv⟩
    · obtain ⟨m, hm, hblock⟩ := hp.blocks iv hiv
      exact ⟨m, List.mem_append_left _ hm, hblock⟩
  · simp only [Layout.mem_allIntervals, IntervalSet.mem_addAll, Array.mem_toList_iff]
    grind

/-- Heredocs are mapped before anything else.

**Proof sketch.** Nothing was mapped before. An empty body covers nothing, so the entries show what
the openers and bodies do. -/
lemma addHeredocs (hp : p.Mapped f base stage) (hrank : stage.rank = 0) {rules : HeredocRules}
    {harvest : Sweep.Harvest (Interval × Interval)} (hrules : f.dialect.heredocs = some rules)
    (hharvest : Sweep.collect (f.heredocStep rules) f.scope.size 0 f.cursor = .ok harvest)
    (htiles : Tiles f.lo f.hi (harvest.items.toList.flatMap Frame.heredocIntervals))
    (hparts : ∀ found ∈ harvest.items, f.IsHeredoc rules found) (tested accepted : Nat) :
    Mapped f base { stage with rank := 1 } { p with
      canvas := (Scene.document f.text).paintAll p.canvas
        (harvest.items.toList.flatMap Frame.heredocEntries).toArray .string
      layout := { p.layout with
        composite := { p.layout.composite with
          heredocs := ((harvest.items.toList.flatMap Frame.heredocEntries).foldl .add
            p.layout.composite.heredocs).count tested accepted } } } := by
  have hnone := hp.noHeredocs hrank
  -- the entries are the intervals without the empty bodies
  have hentries : Tiles f.lo f.hi (harvest.items.toList.flatMap Frame.heredocEntries) :=
    htiles.sublist (List.Sublist.flatMap_right _ fun x _ => Frame.heredocEntries_sublist x)
  have hitems : ((harvest.items.toList.flatMap Frame.heredocEntries).foldl IntervalSet.add
      p.layout.composite.heredocs).intervals.toList =
        harvest.items.toList.flatMap Frame.heredocEntries := by
    have hnil : p.layout.composite.heredocs.intervals.toList = [] := by rw [hnone]
    rw [IntervalSet.toList_foldl_add, hnil]
    · rfl
    · rw [hnil]
      exact hentries.nested.imp And.left
  have hsort : ∀ iv ∈ harvest.items.toList.flatMap Frame.heredocEntries,
      iv.kind.sort = .heredocs := by
    intro iv hiv
    obtain ⟨x, hx, hiv⟩ := List.mem_flatMap.mp hiv
    have hpart := hparts x (by simpa using hx)
    obtain ⟨o, -, htag⟩ := hpart.opener
    have hmem := (Frame.heredocEntries_sublist x).subset hiv
    rcases List.mem_pair.mp hmem with rfl | rfl
    · rw [htag]
      rfl
    · rw [hpart.bodyKind]
      rfl
  refine { hp with
    text := (Scene.text_paintAll _ _ _ _).trans hp.text
    settled := ?_
    noHeredocs := fun h => absurd (show 1 = 0 from h) (by decide)
    noOperators := fun _ => hp.noOperators (.inl (by omega))
    noQuotes := fun _ => hp.noQuotes (by omega)
    noLineComments := fun _ => hp.noLineComments (by omega)
    noBlocks := fun _ => hp.noBlocks (by omega)
    heredocs := .inr ⟨rules, harvest, hrules, hharvest, hitems⟩
    operators := fun iv hiv => ?_
    shaded := hp.shaded_string (by omega) (fun iv => ?_) (by simpa using hsort) (.inr (.inl rfl)) }
  · obtain ⟨hquotes, hlines, hblocks, -, hsorts⟩ := sorts_iff.mp hp.settled.sorts
    refine { hp.settled with
      sorts := sorts_iff.mpr ⟨hquotes, hlines, hblocks, fun iv hiv => ?_, hsorts⟩
      heredocs := ?_ }
    · have hiv := Array.mem_toList_iff.mpr hiv
      exact hsort iv (hitems ▸ hiv)
    · exact hitems.symm ▸ hentries
  · have hiv : iv ∈ p.layout.composite.operators.intervals := hiv
    rw [hp.noOperators (.inl (by omega))] at hiv
    simp at hiv
  · have hset : ∀ iv, iv ∈ ((harvest.items.toList.flatMap Frame.heredocEntries).foldl
        IntervalSet.add p.layout.composite.heredocs).intervals ↔
          iv ∈ harvest.items.toList.flatMap Frame.heredocEntries := by
      intro iv
      rw [← Array.mem_toList_iff, hitems]
    simp only [Layout.mem_allIntervals, IntervalSet.count, hset, hnone]
    grind

/-- Quote operators are mapped once, behind the heredocs and before the strings.

**Proof sketch.** Heredocs and quote operators show the same style, so the order does not matter. An
operator does not start inside a heredoc, which is what the set needs. -/
lemma addOperators (hp : p.Mapped f base stage) (hrank : stage.rank ≤ 1) {found : Array Interval}
    (htiles : Tiles f.lo f.hi found.toList)
    (hfound : ∀ iv ∈ found, (p.layout.composite.heredocs.inString iv.start).isNone = true ∧
      iv.kind = .quoteOperator) (tested accepted : Nat) :
    Mapped f base { stage with rank := 2, operators := true } { p with
      canvas := (Scene.document f.text).paintAll p.canvas found .string
      layout := { p.layout with
        composite := { p.layout.composite with
          operators :=
            (p.layout.composite.operators.addAll found).count tested accepted } } } := by
  have hitems := IntervalSet.toList_addAll (hp.noOperators (.inl hrank))
    (htiles.nested.imp And.left)
  have hsort : ∀ iv ∈ found.toList, iv.kind.sort = .quoteOperators := by
    intro iv hiv
    rw [(hfound iv (by simpa using hiv)).2]
    rfl
  refine { hp with
    text := (Scene.text_paintAll _ _ _ _).trans hp.text
    settled := ?_
    noHeredocs := fun h => absurd (show 2 = 0 from h) (by decide)
    noOperators := fun h => h.elim (fun h => absurd (show 2 ≤ 1 from h) (by decide))
      fun h => absurd (show true = false from h) (by decide)
    noQuotes := fun _ => hp.noQuotes (by omega)
    noLineComments := fun _ => hp.noLineComments (by omega)
    noBlocks := fun _ => hp.noBlocks (by omega)
    operators := fun iv hiv => ?_
    shaded := hp.shaded_string (by omega) (fun iv => ?_) hsort (.inr (.inr rfl)) }
  · obtain ⟨hquotes, hlines, hblocks, hheredocs, -, hsorts⟩ := sorts_iff.mp hp.settled.sorts
    refine { hp.settled with
      sorts := sorts_iff.mpr ⟨hquotes, hlines, hblocks, hheredocs, fun iv hiv => ?_, hsorts⟩
      operators := ?_ }
    · have hiv : iv ∈ (p.layout.composite.operators.addAll found).intervals.toList :=
        Array.mem_toList_iff.mpr hiv
      rw [hitems] at hiv
      exact hsort iv hiv
    · show Tiles f.lo f.hi (p.layout.composite.operators.addAll found).intervals.toList
      rwa [hitems]
  · have hiv : iv ∈ (p.layout.composite.operators.addAll found).intervals.toList :=
      Array.mem_toList_iff.mpr hiv
    rw [hitems] at hiv
    exact (hfound iv (by simpa using hiv)).1
  · simp only [Layout.mem_allIntervals, IntervalSet.count, IntervalSet.mem_addAll,
      Array.mem_toList_iff]
    grind

/-- What holds at a stage holds at a later one with the same marks and condition.

**Proof sketch.** Fewer sets have to be empty. -/
lemma later (hp : p.Mapped f base stage) {next : Primitive.Stage} (hrank : stage.rank ≤ next.rank)
    (hoperators : next.operators = false → stage.operators = false)
    (hblocks : next.blocks = stage.blocks) (hdue : next.due = stage.due) : p.Mapped f base next :=
  { hp with
    noHeredocs := fun h => hp.noHeredocs (by omega)
    noOperators := fun h => hp.noOperators (h.imp (by omega) hoperators)
    noQuotes := fun h => hp.noQuotes (by omega)
    noLineComments := fun h => hp.noLineComments (by omega)
    noBlocks := fun h => hblocks.trans (hp.noBlocks (by omega))
    blocks := by rw [hblocks]; exact hp.blocks
    condition := hp.condition.trans hdue.symm }

end Mapped

end Pass

/-! ### Programs -/

namespace Primitive

variable {f : Frame} {opened : Bool} {p q : Pass} {stage next : Stage} {base : Buffer}

/-- What maps literals does not look for names behind a sign. -/
lemma needsSeal_of_stageAfter {primitive : Primitive} (h : stageAfter stage primitive = some next) :
    needsSeal primitive = false := by
  cases primitive with
  | signedVariable => cases h
  | innerSection => cases h
  | embedScope => cases h
  | ifContains => cases h
  | _ => simp [needsSeal]

/-- A primitive that maps literals takes a pass to the next stage.

**Proof sketch.** By cases on the primitive. Each case is the effect of the primitive, with the lemma
above that adds what it has found. -/
theorem run_mapped (hf : f.WellFormed) (hd : f.dialect.isPlain = true) {primitive : Primitive}
    (hsound : sound opened primitive = true) (hfits : p.Fits f opened) (hp : p.Mapped f base stage)
    (hnext : stageAfter stage primitive = some next)
    (h : run (.document f.text) primitive f p = .ok q) : q.Mapped f base next := by
  cases primitive with
  | setCondition condition =>
    obtain rfl := Option.some.inj hnext
    simp only [run] at h
    cases h
    exact { hp with condition := rfl }
  | heredocs =>
    obtain ⟨hrank, hnext⟩ := Option.ite_none_right_eq_some.mp hnext
    obtain rfl := Option.some.inj hnext
    simp only [run] at h
    rcases Pass.mapHeredocs_eq_ok hf (fun r hr => by simpa [Dialect.isPlain, hr] using hd) h with
      rfl | ⟨rules, harvest, tested, accepted, hrules, hharvest, htiles, hparts, rfl⟩
    · exact hp.later (by simp [hrank]) id rfl rfl
    · exact hp.addHeredocs hrank hrules hharvest htiles hparts tested accepted
  | quoteOperators =>
    obtain ⟨hrank, hnext⟩ := Option.ite_none_right_eq_some.mp hnext
    obtain rfl := Option.some.inj hnext
    simp only [run] at h
    rcases Pass.mapOperators_eq_ok hf h with
      rfl | ⟨found, tested, accepted, htiles, hfound, rfl⟩
    · exact hp.later (Nat.le_succ_of_le hrank) (by simp) rfl rfl
    · exact hp.addOperators hrank htiles hfound tested accepted
  | quotes singleLine =>
    obtain ⟨hrank, hnext⟩ := Option.ite_none_right_eq_some.mp hnext
    obtain rfl := Option.some.inj hnext
    simp only [run] at h
    obtain ⟨found, tested, htiles, hsort, rfl⟩ := Pass.mapQuotes_eq_ok hf h
    exact hp.addQuotes hrank htiles hsort tested found.size
  | lineComments marks =>
    obtain ⟨hrank, hnext⟩ := Option.ite_none_right_eq_some.mp hnext
    obtain rfl := Option.some.inj hnext
    simp only [sound, List.all_eq_true, decide_eq_true_eq] at hsound
    simp only [run] at h
    obtain ⟨found, tested, htiles, hkind, rfl⟩ := Pass.mapLineComments_eq_ok hf hsound h
    exact hp.addLineComments hrank htiles hkind tested found.size _
  | blockComments opener closer ignoreQuoted =>
    obtain ⟨hmarks, hnext⟩ := Option.ite_none_right_eq_some.mp hnext
    obtain rfl := Option.some.inj hnext
    simp only [sound, Bool.and_eq_true, decide_eq_true_eq] at hsound
    simp only [run] at h
    obtain ⟨found, htiles, hblocks, rfl⟩ :=
      Pass.mapBlockComments_eq_ok hf hfits hsound.1 hsound.2 h
    exact hp.addBlockComments hmarks
      (fun iv hiv => (hfits.layout.blockComments.within iv hiv).2.1) htiles hblocks
  | keywords => cases hnext
  | extensibleKeyword => cases hnext
  | signedVariable => cases hnext
  | marks => cases hnext
  | tags => cases hnext
  | innerSection => cases hnext
  | embedScope => cases hnext
  | ifContains => cases hnext

/-- **Mapping comes first.** A program takes a pass to the stage that it reaches by mapping literals,
and then the rest of it runs.

**Proof sketch.** Induction on the program, with one primitive at a time. -/
theorem runAll_mapped (hf : f.WellFormed) (hd : f.dialect.isPlain = true) {program : List Primitive}
    (hsound : soundAll opened program = true) (hfits : p.Fits f opened) (hp : p.Mapped f base stage)
    (h : runAll (.document f.text) program f p = .ok q) :
    ∃ opened' p', soundAll opened' (mapping stage program).2 = true ∧ p'.Fits f opened' ∧
      p'.Mapped f base (mapping stage program).1 ∧
      runAll (.document f.text) (mapping stage program).2 f p' = .ok q := by
  induction program generalizing p stage opened with
  | nil => exact ⟨opened, p, hsound, hfits, hp, h⟩
  | cons primitive rest ih =>
    unfold mapping
    split
    · rename_i next hnext
      simp only [soundAll, Bool.and_eq_true] at hsound
      rw [runAll_cons hp.quiet] at h
      obtain ⟨p₁, hrun, h⟩ := bind_eq_ok.mp h
      have hseal : needsSeal primitive = true → f.text.Sealed f.hi := by
        rw [needsSeal_of_stageAfter hnext]
        exact fun hn => absurd hn (by decide)
      have hfits₁ := (run_ensures (Scene.wellFormed_whole hf.valid false) primitive opened f p
        hsound.1 hf rfl hd hseal hfits).elim hrun
      exact ih hsound.2 hfits₁ (run_mapped hf hd hsound.1 hfits hp hnext hrun) h
    · exact ⟨opened, p, hsound, hfits, hp, h⟩

end Primitive

end LexPaint
