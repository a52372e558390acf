import LexPaint.Proofs.PassSafety
import LexPaint.Proofs.SectionView

set_option relaxedAutoImplicit false
set_option autoImplicit false

/-!
# What a pass leaves alone

A pass paints in its section only, and it keeps the history that the last committed pass has left.
Both hold for every program, whatever it maps and paints.

## Main definitions

* `Scene.Painted`: a canvas that comes from another one by painting in a section.
* `Layout.history`: what the sets keep of the last committed pass.
* `Pass.Continues`: a pass that comes from another one.

## Main results

* `Scene.Painted.styles_eq`: painting in a section changes nothing outside of it.
* `Primitive.runAll_continues`: every program paints in its section and keeps the history.
-/

namespace LexPaint

/-! ### Canvases -/

/-- The canvas comes from another one by painting ranges in a section. -/
inductive Scene.Painted (s : Scene) (c : Buffer) : Buffer → Prop
  | refl : Painted s c c
  | paint {d : Buffer} (h : Painted s c d) (start stop : Nat) (style : Style) :
    Painted s c (s.paint d start stop style)

namespace Scene.Painted

variable {s : Scene} {c d e : Buffer}

/-- Painting goes on from where it was left. -/
lemma trans (h : s.Painted c d) (h' : s.Painted d e) : s.Painted c e := by
  induction h' with
  | refl => exact h
  | paint _ start stop style ih => exact ih.paint start stop style

/-- Painting leaves the text alone. -/
lemma text_eq (h : s.Painted c d) : d.text = c.text := by
  induction h with
  | refl => rfl
  | paint _ start stop style ih => exact (s.text_paint _ _ _ _).trans ih

/-- Painting in a section changes nothing outside of it. -/
lemma styles_eq (h : s.Painted c d) {i : Nat} (hi : i < s.start ∨ s.stop ≤ i) :
    d.styles[i]? = c.styles[i]? := by
  induction h with
  | refl => rfl
  | paint _ start stop style ih =>
    rw [styles_paint, if_neg (by omega)]
    exact ih

/-- Painting one thing after another is painting. -/
lemma foldl {α : Type} {g : Buffer → α → Buffer} (hg : ∀ c x, s.Painted c (g c x)) (xs : List α)
    (c : Buffer) : s.Painted c (xs.foldl g c) := by
  induction xs generalizing c with
  | nil => exact .refl
  | cons x rest ih => exact (hg c x).trans (ih _)

/-- Painting intervals is painting in the section. -/
lemma paintAll (c : Buffer) (ivs : Array Interval) (style : Style) :
    s.Painted c (s.paintAll c ivs style) := by
  rw [Scene.paintAll, ← Array.foldl_toList]
  exact foldl (fun c (iv : Interval) => .paint .refl iv.start iv.stop style) _ c

/-- Painting around embedded sections is painting in the section. -/
lemma paintOutside (c : Buffer) (embedded : IntervalSet) (start stop : Nat) (style : Style) :
    s.Painted c (s.paintOutside c embedded start stop style) := by
  unfold Scene.paintOutside
  dsimp only
  generalize embedded.intervals.toList.filter _ = gaps
  have hgaps : ∀ state : Buffer × Nat, s.Painted state.1 (gaps.foldl
      (fun (state : Buffer × Nat) iv =>
        (s.paint state.1 state.2 (max iv.start state.2) style, max state.2 iv.stop)) state).1 := by
    induction gaps with
    | nil => exact fun _ => .refl
    | cons iv rest ih =>
      intro state
      exact (paint .refl state.2 (max iv.start state.2) style).trans (ih (_, _))
  exact (hgaps (c, start)).paint _ _ _

/-- Painting a tag is painting in the section. -/
lemma paintTag (embedded : IntervalSet) (c : Buffer) (tag : TagFind) :
    s.Painted c (Pass.paintTag s embedded c tag) := by
  unfold Pass.paintTag
  have hname : s.Painted c (s.paint c tag.nameStart tag.nameStop .tagName) := paint .refl _ _ _
  refine hname.trans ((foldl (fun c run => ?_) tag.attributes _).trans (foldl (fun c value => ?_) _ _))
  · exact paint .refl run.1 run.2 .attributeName
  · exact paintOutside c embedded value.1 value.2 .attributeValue

/-- Painting the marks of an embedded section is painting in the section of the pass. -/
lemma paintRegionMarks (endTag : Mark) (element : Bool) (r : Region) (c : Buffer) :
    s.Painted c (Pass.paintRegionMarks s endTag element r c) := by
  unfold Pass.paintRegionMarks
  split
  · exact .refl
  · dsimp only
    split
    · exact (paint .refl _ _ _).paint _ _ _
    · exact paint .refl _ _ _

variable {f : Frame} {step : Nat → Nat → Unit → Checked (Sweep.Move Unit (Nat × Nat))}

/-- Painting tokens is painting in the section. -/
lemma paintTokens {style : Style} (h : Pass.paintTokens s f step style c = .ok d) :
    s.Painted c d := by
  obtain ⟨harvest, -, h⟩ := bind_eq_ok.mp h
  cases h
  rw [← Array.foldl_toList]
  exact foldl (fun c (token : Nat × Nat) => .paint .refl token.1 token.2 style) _ c

/-- Painting the tokens of a mark is painting in the section. -/
lemma paintOccurrences {l : Layout} {condition : Condition} {needle : Mark}
    {tokenEnd : Frame.TokenEnd} {style : Style}
    (h : Pass.paintOccurrences s f l condition needle tokenEnd style c = .ok d) :
    s.Painted c d := by
  unfold Pass.paintOccurrences at h
  split at h
  · cases h
    exact .refl
  · exact paintTokens h

end Scene.Painted

/-! ### History -/

/-- What the sets keep of the last committed pass. -/
def Layout.history (l : Layout) : List (Array Interval) :=
  l.sets.map fun entry => entry.2.retained

/-- A pass that comes from another one by painting in the section; the history is that of the other
one, and so is the request for a full pass unless changes are looked for. -/
structure Pass.Continues (s : Scene) (p q : Pass) : Prop where
  painted : s.Painted p.canvas q.canvas
  history : q.layout.history = p.layout.history
  nested : q.nested.retained = p.nested.retained
  repair : s.detect = false → q.repair = p.repair

namespace Pass

variable {s : Scene} {f : Frame} {p q r : Pass}

namespace Continues

/-- A pass comes from itself. -/
lemma refl (s : Scene) (p : Pass) : p.Continues s p :=
  ⟨.refl, rfl, rfl, fun _ => rfl⟩

/-- A pass goes on from where it was left. -/
lemma trans (h : p.Continues s q) (h' : q.Continues s r) : p.Continues s r :=
  ⟨h.painted.trans h'.painted, h'.history.trans h.history, h'.nested.trans h.nested,
    fun hd => (h'.repair hd).trans (h.repair hd)⟩

/-- A request for repair changes neither the canvas nor the history. -/
lemma repairIf (h : p.Continues s q) (changed : Bool) (reason : RepairReason) :
    p.Continues s (q.repairIf s f changed reason) :=
  ⟨by rw [canvas_repairIf]; exact h.painted, by rw [layout_repairIf]; exact h.history,
    by rw [nested_repairIf]; exact h.nested,
    fun hd => by rw [repairIf_of_not_detect hd]; exact h.repair hd⟩

end Continues

/-- Adding to a set leaves its history alone. -/
lemma retained_foldl_add {α : Type} {g : IntervalSet → α → IntervalSet}
    (hg : ∀ set x, (g set x).retained = set.retained) (xs : List α) (set : IntervalSet) :
    (xs.foldl g set).retained = set.retained := by
  induction xs generalizing set with
  | nil => rfl
  | cons x rest ih => exact (ih _).trans (hg set x)

/-- The comparison of entries counts them. -/
lemma entriesChanged_eq_ok {set : IntervalSet} {tested : Nat} {r : IntervalSet × Bool}
    (h : CompositeSet.entriesChanged set tested = .ok r) : r.1 = set.count tested set.size := by
  obtain ⟨changed, -, h⟩ := bind_eq_ok.mp h
  cases h
  rfl

/-- A pass goes on if it paints in the section and its layout keeps the history. -/
lemma continues_of_layout {canvas : Buffer} {l : Layout} (condition : Condition)
    (hc : s.Painted p.canvas canvas) (hl : l.history = p.layout.history) :
    p.Continues s { p with canvas, layout := l, condition } :=
  ⟨hc, hl, rfl, fun _ => rfl⟩

/-- Mapping strings goes on with a pass. -/
lemma mapQuotes_continues {singleLine : Bool} (h : p.mapQuotes s f singleLine = .ok q) :
    p.Continues s q := by
  unfold mapQuotes at h
  obtain ⟨_, -, h⟩ := bind_eq_ok.mp h
  obtain ⟨harvest, -, h⟩ := bind_eq_ok.mp h
  cases h
  refine (continues_of_layout _ (.paintAll _ _ _) ?_).repairIf _ _
  simp [Layout.history, Layout.sets, IntervalSet.count, retained_addAll]

/-- Mapping line comments goes on with a pass. -/
lemma mapLineComments_continues {marks : List Mark} (h : p.mapLineComments s f marks = .ok q) :
    p.Continues s q := by
  unfold mapLineComments at h
  obtain ⟨harvest, -, h⟩ := bind_eq_ok.mp h
  cases h
  refine (continues_of_layout _ (.paintAll _ _ _) ?_).repairIf _ _
  simp [Layout.history, Layout.sets, IntervalSet.count, retained_addAll]

/-- Mapping block comments goes on with a pass. -/
lemma mapBlockComments_continues {opener closer : Mark} {ignoreQuoted : Bool}
    (h : p.mapBlockComments s f opener closer ignoreQuoted = .ok q) : p.Continues s q := by
  unfold mapBlockComments at h
  obtain ⟨harvest, -, h⟩ := bind_eq_ok.mp h
  cases h
  refine continues_of_layout _ (.paintAll _ _ _) ?_
  simp [Layout.history, Layout.sets, retained_addAll]

/-- What mapping heredocs does: nothing in a language without them, and otherwise the openers and bodies
that a sweep finds are recorded and painted.

**Proof sketch.** The primitive is run step by step. The comparison leaves the quote operators as
they are. -/
lemma mapHeredocs_cases (h : p.mapHeredocs s f = .ok q) :
    f.dialect.heredocs = none ∧ q = p ∨
      ∃ rules harvest set changed, f.dialect.heredocs = some rules ∧
        Sweep.collect (f.heredocStep rules) f.scope.size 0 f.cursor = .ok harvest ∧
        set = harvest.items.foldl addHeredoc p.layout.composite.heredocs ∧
        CompositeSet.entriesChanged set harvest.tested =
          .ok (set.count harvest.tested set.size, changed) ∧
        q = ({ p with
          canvas := harvest.items.foldl
            (fun canvas (found : Interval × Interval) =>
              s.paint (s.paint canvas found.1.start found.1.stop .string)
                found.2.start found.2.stop .string)
            p.canvas
          layout := { p.layout with
            composite := { p.layout.composite with
              heredocs := set.count harvest.tested set.size } } }).repairIf s f changed
                .heredocEntries := by
  unfold mapHeredocs at h
  split at h
  · rename_i hnone
    cases h
    exact .inl ⟨hnone, rfl⟩
  · rename_i rules hrules
    obtain ⟨harvest, hharvest, h⟩ := bind_eq_ok.mp h
    obtain ⟨⟨composite, changed⟩, hchange, h⟩ := bind_eq_ok.mp h
    obtain ⟨⟨set, changed'⟩, hentries, hchange⟩ := bind_eq_ok.mp hchange
    have hset := entriesChanged_eq_ok hentries
    dsimp only at hset
    subst hset
    cases hchange
    cases h
    exact .inr ⟨rules, harvest, _, _, hrules, hharvest, rfl, hentries, rfl⟩

/-- Mapping heredocs goes on with a pass. -/
lemma mapHeredocs_continues (h : p.mapHeredocs s f = .ok q) : p.Continues s q := by
  rcases mapHeredocs_cases h with ⟨-, rfl⟩ | ⟨rules, harvest, set, changed, -, -, rfl, -, rfl⟩
  · exact .refl s _
  · have hadd (set : IntervalSet) (found : Interval × Interval) :
        (addHeredoc set found).retained = set.retained := by
      unfold addHeredoc
      dsimp only
      split <;> rfl
    refine Continues.repairIf (continues_of_layout _ ?_ ?_) _ _
    · rw [← Array.foldl_toList]
      exact .foldl (fun c (found : Interval × Interval) => (Scene.Painted.refl.paint _ _ _).paint _ _ _) _ _
    · simp [Layout.history, Layout.sets, IntervalSet.count, ← Array.foldl_toList,
        retained_foldl_add hadd]

/-- What mapping quote operators does: nothing in a language without them, and otherwise those that a sweep
finds are recorded and painted.

**Proof sketch.** As for heredocs. The comparison leaves the heredocs as they are. -/
lemma mapOperators_cases (h : p.mapOperators s f = .ok q) :
    f.dialect.operators = none ∧ q = p ∨
      ∃ rules harvest set changed, f.dialect.operators = some rules ∧
        Sweep.collect (f.operatorStep p.layout rules) f.hi f.lo () = .ok harvest ∧
        set = p.layout.composite.operators.addAll harvest.items ∧
        q = ({ p with
          canvas := s.paintAll p.canvas harvest.items .string
          layout := { p.layout with
            composite := { p.layout.composite with
              operators := set.count harvest.tested set.size } } }).repairIf s f changed
                .operatorEntries := by
  unfold mapOperators at h
  split at h
  · rename_i hnone
    cases h
    exact .inl ⟨hnone, rfl⟩
  · rename_i rules hrules
    obtain ⟨harvest, hharvest, h⟩ := bind_eq_ok.mp h
    obtain ⟨⟨composite, changed⟩, hchange, h⟩ := bind_eq_ok.mp h
    obtain ⟨⟨set, changed'⟩, hentries, hchange⟩ := bind_eq_ok.mp hchange
    have hset := entriesChanged_eq_ok hentries
    dsimp only at hset
    subst hset
    cases hchange
    cases h
    exact .inr ⟨rules, harvest, _, _, hrules, hharvest, rfl, rfl⟩

/-- Mapping quote operators goes on with a pass. -/
lemma mapOperators_continues (h : p.mapOperators s f = .ok q) : p.Continues s q := by
  rcases mapOperators_cases h with ⟨-, rfl⟩ | ⟨rules, harvest, set, changed, -, -, rfl, rfl⟩
  · exact .refl s _
  · refine Continues.repairIf (continues_of_layout _ (.paintAll _ _ _) ?_) _ _
    simp [Layout.history, Layout.sets, IntervalSet.count, retained_addAll]

/-- Mapping tags goes on with a pass. -/
lemma mapTags_continues (h : p.mapTags s f = .ok q) : p.Continues s q := by
  unfold mapTags at h
  obtain ⟨harvest, -, h⟩ := bind_eq_ok.mp h
  cases h
  refine continues_of_layout _ ?_ ?_
  · rw [← Array.foldl_toList]
    exact .foldl (fun c tag => .paintTag _ c tag) _ _
  · have hvalues (set : IntervalSet) (tag : TagFind) :
        (tag.values.foldl (fun set value => set.add ⟨value.1, value.2, .attributeValue⟩)
          set).retained = set.retained :=
      retained_foldl_add (fun set value => by rfl) tag.values set
    simp [Layout.history, Layout.sets, ← Array.foldl_toList, retained_foldl_add hvalues,
      retained_foldl_add (g := fun (set : IntervalSet) (tag : TagFind) =>
        set.add ⟨tag.start, tag.stop, .tag⟩) (fun _ _ => rfl)]

/-- A layout with other embedded sections has the same history if the sections have. -/
lemma embedded_history {l : Layout} {embedded : IntervalSet}
    (h : embedded.retained = l.embedded.retained) : { l with embedded }.history = l.history := by
  simp [Layout.history, Layout.sets, h]

/-- What a delegated pass adds to the nested intervals and to the canvas; the outer layout stays. -/
lemma delegate_continues {lo hi : Nat} {dialect : Dialect} {body : Frame → Pass → Checked Pass}
    (hbody : ∀ g p q, body g p = .ok q → p.Continues s q)
    (h : p.delegate f lo hi dialect body = .ok q) : p.Continues s q := by
  unfold delegate at h
  obtain ⟨inner, -, h⟩ := bind_eq_ok.mp h
  obtain ⟨r, hr, h⟩ := bind_eq_ok.mp h
  cases h
  have hr := hbody _ _ _ hr
  have hadd := retained_foldl_add (fun set (iv : Interval) => show (set.add iv).retained = _ by rfl)
  exact ⟨hr.painted, rfl, (hadd r.layout.allIntervals r.nested).trans hr.nested, hr.repair⟩

/-- Mapping embedded sections goes on with a pass, if the bodies do. -/
lemma mapRegions_continues {startTag endTag : Mark} {element : Bool} {name : String}
    {dialect : Dialect} {body : Frame → Pass → Checked Pass}
    (hbody : ∀ g p q, body g p = .ok q → p.Continues s q)
    (h : p.mapRegions s f startTag endTag element name dialect body = .ok q) :
    p.Continues s q := by
  unfold mapRegions at h
  split at h
  · cases h
    exact .refl s _
  · obtain ⟨harvest, -, h⟩ := bind_eq_ok.mp h
    have hadd (set : IntervalSet) (r : Region) : (Frame.addRegion set r).retained = set.retained := by
      unfold Frame.addRegion
      split <;> rfl
    rw [← Array.foldlM_toList, ← Array.foldl_toList] at h
    have hstart : p.Continues s { p with layout := { p.layout with
        embedded := harvest.items.toList.foldl Frame.addRegion p.layout.embedded } } :=
      ⟨.refl, embedded_history (retained_foldl_add hadd _ _), rfl, fun _ => rfl⟩
    refine foldlM_induction (I := fun q => p.Continues s q) (fun r _ p₁ p₂ hp₁ hp₂ => ?_) hstart h
    have hmarks : p₁.Continues s
        { p₁ with canvas := paintRegionMarks s endTag element r p₁.canvas } :=
      ⟨.paintRegionMarks _ _ _ _, rfl, rfl, fun _ => rfl⟩
    exact hp₁.trans (hmarks.trans (delegate_continues hbody hp₂))

/-- Handing a scope over goes on with a pass, if the body does. -/
lemma embedScope_continues {name : String} {dialect : Dialect}
    {body : Frame → Pass → Checked Pass} (hbody : ∀ g p q, body g p = .ok q → p.Continues s q)
    (h : p.embedScope f name dialect body = .ok q) : p.Continues s q := by
  unfold embedScope at h
  refine Continues.trans ?_ (delegate_continues hbody h)
  refine ⟨.refl, embedded_history ?_, rfl, fun _ => rfl⟩
  split <;> rfl

/-- Painting one thing after another is painting, where it may fail. -/
lemma foldlM_continues {α : Type} {g : Buffer → α → Checked Buffer}
    (hg : ∀ c x d, g c x = .ok d → s.Painted c d) {xs : List α} {c d : Buffer}
    (h : xs.foldlM g c = .ok d) : s.Painted c d :=
  foldlM_induction (I := fun e => s.Painted c e) (fun x _ e e' he hx => he.trans (hg e x e' hx))
    .refl h

end Pass

namespace Primitive

variable {s : Scene}

mutual

/-- One primitive paints in its section and keeps the history.

**Proof sketch.** By cases on the primitive. For one that embeds another program by the same fact for
that program. -/
theorem run_continues : ∀ (primitive : Primitive) (f : Frame) (p q : Pass),
    run s primitive f p = .ok q → p.Continues s q
  | .setCondition condition, f, p, q, h => by
    simp only [run] at h
    cases h
    exact ⟨.refl, rfl, rfl, fun _ => rfl⟩
  | .quotes singleLine, f, p, q, h => by
    simp only [run] at h
    exact Pass.mapQuotes_continues h
  | .lineComments openers, f, p, q, h => by
    simp only [run] at h
    exact Pass.mapLineComments_continues h
  | .blockComments opener closer ignoreQuoted, f, p, q, h => by
    simp only [run] at h
    exact Pass.mapBlockComments_continues h
  | .keywords words wholeWord notAfter style, f, p, q, h => by
    simp only [run] at h
    obtain ⟨c, hc, h⟩ := bind_eq_ok.mp h
    cases h
    exact ⟨Pass.foldlM_continues (fun _ _ _ => .paintOccurrences) hc, rfl, rfl, fun _ => rfl⟩
  | .extensibleKeyword base suffixes style, f, p, q, h => by
    simp only [run] at h
    obtain ⟨c, hc, h⟩ := bind_eq_ok.mp h
    cases h
    exact ⟨.paintOccurrences hc, rfl, rfl, fun _ => rfl⟩
  | .signedVariable sign ends exceptions, f, p, q, h => by
    simp only [run] at h
    obtain ⟨c, hc, h⟩ := bind_eq_ok.mp h
    cases h
    exact ⟨.paintTokens hc, rfl, rfl, fun _ => rfl⟩
  | .marks bytes style, f, p, q, h => by
    simp only [run] at h
    obtain ⟨c, hc, h⟩ := bind_eq_ok.mp h
    cases h
    exact ⟨.paintTokens hc, rfl, rfl, fun _ => rfl⟩
  | .heredocs, f, p, q, h => by
    simp only [run] at h
    exact Pass.mapHeredocs_continues h
  | .quoteOperators, f, p, q, h => by
    simp only [run] at h
    exact Pass.mapOperators_continues h
  | .tags, f, p, q, h => by
    simp only [run] at h
    exact Pass.mapTags_continues h
  | .innerSection startTag endTag element name dialect body, f, p, q, h => by
    simp only [run] at h
    exact Pass.mapRegions_continues (runAll_continues body) h
  | .embedScope name dialect body, f, p, q, h => by
    simp only [run] at h
    exact Pass.embedScope_continues (runAll_continues body) h
  | .ifContains needle yes no, f, p, q, h => by
    simp only [run] at h
    split at h
    · exact runAll_continues yes f p q h
    · exact runAll_continues no f p q h

/-- **Frame of a program.** A program paints in its section and keeps the history.

**Proof sketch.** Induction on the program. A run that stops because of a repair leaves the pass as
it is. -/
theorem runAll_continues : ∀ (program : List Primitive) (f : Frame) (p q : Pass),
    runAll s program f p = .ok q → p.Continues s q
  | [], f, p, q, h => by
    simp only [runAll] at h
    cases h
    exact .refl s p
  | primitive :: rest, f, p, q, h => by
    rcases eq_or_of_runAll_cons h with rfl | ⟨p₁, hp₁, h⟩
    · exact .refl s p
    · exact (run_continues primitive f p p₁ hp₁).trans (runAll_continues rest f p₁ q h)

end

end Primitive

end LexPaint
