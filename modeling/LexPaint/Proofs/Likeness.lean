import LexPaint.Pass.Run
import LexPaint.Proofs.Ensures

set_option relaxedAutoImplicit false
set_option autoImplicit false

/-!
# What lexing does not look at

A set of intervals keeps those of the last pass beside those of the current one. The history serves
the comparison after the pass only: no step of a sweep looks at it. So two passes over one text map
the same, whatever passes came before them.

## Main definitions

* `IntervalSet.Like`, `Layout.Like`: equal up to the history.
* `Sweep.Move.Like`: equal steps with related states.

## Main results

* `Sweep.collect_alike`: sweeps with equal steps have equal harvests.
* `Frame.blockCommentStep_alike`, `Frame.regionStep_alike`: the steps that carry a set along.
-/

namespace LexPaint

/-! ### Sets up to their history -/

namespace IntervalSet

/-- Two sets hold the same in the current pass. -/
structure Like (set set' : IntervalSet) : Prop where
  intervals : set.intervals = set'.intervals
  counts : set.counts = set'.counts

namespace Like

variable {set set' : IntervalSet}

/-- A set is like itself. -/
lemma refl (set : IntervalSet) : set.Like set :=
  ⟨rfl, rfl⟩

/-- Sets that are alike differ in nothing but their history. -/
lemma clearHistory_eq (h : set.Like set') : set.clearHistory = set'.clearHistory :=
  IntervalSet.ext h.intervals h.counts rfl rfl

/-- A commit replaces the history, so sets that are alike become the same. -/
lemma commit_eq (h : set.Like set') : set.commit = set'.commit :=
  IntervalSet.ext h.intervals h.counts h.intervals h.counts

/-- After a reset all sets are alike. -/
lemma reset (set set' : IntervalSet) : set.reset.Like set'.reset :=
  ⟨rfl, rfl⟩

/-- Sets stay alike if an interval is added to both. -/
lemma add (h : set.Like set') (iv : Interval) : (set.add iv).Like (set'.add iv) :=
  ⟨congrArg (insertOrdered · iv) h.intervals, h.counts⟩

/-- Sets stay alike while equal intervals are added to both. -/
lemma foldl {α : Type} {g : IntervalSet → α → IntervalSet}
    (hg : ∀ set set' a, set.Like set' → (g set a).Like (g set' a)) (h : set.Like set')
    (xs : List α) : (xs.foldl g set).Like (xs.foldl g set') := by
  induction xs generalizing set set' with
  | nil => exact h
  | cons x rest ih => exact ih (hg _ _ x h)

/-- Sets stay alike if the same intervals are added to both. -/
lemma addAll (h : set.Like set') (ivs : Array Interval) : (set.addAll ivs).Like (set'.addAll ivs) := by
  rw [IntervalSet.addAll, IntervalSet.addAll, ← Array.foldl_toList, ← Array.foldl_toList]
  exact h.foldl (fun _ _ iv h => h.add iv) _

/-- Sets stay alike if the same candidates are counted for both. -/
lemma count (h : set.Like set') (tested accepted : Nat) :
    (set.count tested accepted).Like (set'.count tested accepted) :=
  ⟨h.intervals, rfl⟩

end Like

end IntervalSet

/-! ### Layouts up to their history -/

namespace Layout

/-- Two layouts hold the same in the current pass. -/
structure Like (l l' : Layout) : Prop where
  quotes : l.quotes.Like l'.quotes
  lineComments : l.lineComments.Like l'.lineComments
  blockComments : l.blockComments.Like l'.blockComments
  heredocs : l.composite.heredocs.Like l'.composite.heredocs
  operators : l.composite.operators.Like l'.composite.operators
  tags : l.tags.Like l'.tags
  attributeValues : l.attributeValues.Like l'.attributeValues
  embedded : l.embedded.Like l'.embedded
  commentStarts : l.commentStarts = l'.commentStarts

namespace Like

variable {l l' : Layout}

/-- A layout is like itself. -/
lemma refl (l : Layout) : l.Like l :=
  ⟨.refl _, .refl _, .refl _, .refl _, .refl _, .refl _, .refl _, .refl _, rfl⟩

/-- After a reset all layouts are alike. -/
lemma reset (l l' : Layout) : l.reset.Like l'.reset :=
  ⟨.reset _ _, .reset _ _, .reset _ _, .reset _ _, .reset _ _, .reset _ _, .reset _ _, .reset _ _,
    rfl⟩

/-- Layouts that are alike differ in nothing but their history. -/
lemma clearHistory_eq (h : l.Like l') : l.clearHistory = l'.clearHistory :=
  Layout.ext h.quotes.clearHistory_eq h.lineComments.clearHistory_eq h.blockComments.clearHistory_eq
    (CompositeSet.ext h.heredocs.clearHistory_eq h.operators.clearHistory_eq) h.tags.clearHistory_eq
    h.attributeValues.clearHistory_eq h.embedded.clearHistory_eq h.commentStarts

/-- A commit replaces the history, so layouts that are alike become the same. -/
lemma commit_eq (h : l.Like l') : l.commit = l'.commit :=
  Layout.ext h.quotes.commit_eq h.lineComments.commit_eq h.blockComments.commit_eq
    (CompositeSet.ext h.heredocs.commit_eq h.operators.commit_eq) h.tags.commit_eq
    h.attributeValues.commit_eq h.embedded.commit_eq h.commentStarts

/-- Layouts that are alike hold the same intervals. -/
lemma allIntervals_eq (h : l.Like l') : l.allIntervals = l'.allIntervals := by
  simp only [allIntervals, sets, List.flatMap_cons, List.flatMap_nil]
  rw [h.quotes.intervals, h.lineComments.intervals, h.blockComments.intervals, h.heredocs.intervals,
    h.operators.intervals, h.tags.intervals, h.attributeValues.intervals, h.embedded.intervals]

end Like

end Layout

/-! ### Sweeps with equal steps -/

namespace Sweep

variable {σ τ α : Type}

/-- The two steps do the same, and the states that they carry along are related. -/
inductive Move.Like (R : σ → τ → Prop) : Move σ α → Move τ α → Prop
  | stop : Move.Like R .stop .stop
  | go (verdict : Verdict α) (next : Nat) {s : σ} {t : τ} (h : R s t) :
    Move.Like R (.go verdict next s) (.go verdict next t)

/-- Two sweeps with equal steps harvest the same.

**Proof sketch.** Induction on the recursion of the first sweep. Equal steps go to equal offsets
with related states, so the sweeps stay side by side. -/
theorem run_alike {step : Nat → σ → Checked (Move σ α)} {step' : Nat → τ → Checked (Move τ α)}
    {R : σ → τ → Prop} (hstep : ∀ pos s t, R s t → Alike (step pos s) (step' pos t) (Move.Like R))
    (hi pos : Nat) {s : σ} {t : τ} (hR : R s t) (h : Harvest α) :
    Alike (run step hi pos s h) (run step' hi pos t h) fun r r' => r.1 = r'.1 := by
  induction hn : hi - pos using Nat.strongRecOn generalizing pos s t h with
  | _ n ih =>
    intro r r' hr hr'
    rw [run] at hr hr'
    split at hr
    · cases hr
    · rename_i hs
      split at hr'
      · cases hr'
      · cases hr
        cases hr'
        rfl
      · rename_i hs'
        cases hstep pos s t hR _ _ hs hs'
    · rename_i hs
      split at hr'
      · cases hr'
      · rename_i hs'
        cases hstep pos s t hR _ _ hs hs'
      · rename_i hs'
        cases hstep pos s t hR _ _ hs hs' with
        | go verdict next hRst =>
          split at hr
          · cases hr
          · rename_i hle
            rw [if_neg hle] at hr'
            split at hr
            · rename_i hlt
              rw [if_pos hlt] at hr'
              refine ih _ ?_ _ hRst _ rfl _ _ hr hr'
              omega
            · rename_i hge
              rw [if_neg hge] at hr'
              cases hr
              cases hr'
              rfl

/-- Two sweeps with equal steps have equal harvests. -/
theorem collect_alike {step : Nat → σ → Checked (Move σ α)} {step' : Nat → τ → Checked (Move τ α)}
    {R : σ → τ → Prop} (hstep : ∀ pos s t, R s t → Alike (step pos s) (step' pos t) (Move.Like R))
    (hi pos : Nat) {s : σ} {t : τ} (hR : R s t) :
    Alike (collect step hi pos s) (collect step' hi pos t) Eq :=
  .bind (run_alike hstep hi pos hR .empty) fun _ _ h => .pure h

end Sweep

/-! ### Steps -/

namespace Frame

variable {f : Frame} {l l' : Layout}

/-- A function of a layout that does not look at its history. -/
lemma eq_of_like {β : Type} {g : Layout → β} (hg : ∀ l, g l = g l.clearHistory) (h : l.Like l') :
    g l = g l' := by
  rw [hg l, hg l', h.clearHistory_eq]

/-- The scan for strings does not look at the history. -/
lemma quoteStep_like (h : l.Like l') : f.quoteStep l = f.quoteStep l' :=
  eq_of_like (fun _ => rfl) h

/-- The scan for line comments does not look at the history. -/
lemma lineCommentStep_like (h : l.Like l') : f.lineCommentStep l = f.lineCommentStep l' :=
  eq_of_like (fun _ => rfl) h

/-- The scan for quote operators does not look at the history. -/
lemma operatorStep_like (h : l.Like l') : f.operatorStep l = f.operatorStep l' :=
  eq_of_like (fun _ => rfl) h

/-- The end and the values of a tag do not depend on the history of the embedded sections. **Proof
sketch.** Induction along the tag. Only the section at an offset is asked for. -/
lemma tagBody_like (t : Text) (embedded : IntervalSet) (i hi : Nat) :
    tagBody t embedded i hi = tagBody t embedded.clearHistory i hi := by
  have hat (i : Nat) : embedded.clearHistory.intervalAt i = embedded.intervalAt i := rfl
  fun_induction tagBody t embedded i hi with
  | case1 i hlt hc => rw [tagBody, if_pos hlt, if_pos hc]
  | case2 i hlt hc hopen iv hiv ih =>
    rw [ih, tagBody.eq_def _ _ i, if_pos hlt, if_neg hc, if_pos hopen, hat, hiv]
  | case3 i hlt hc hopen hnone =>
    rw [tagBody, if_pos hlt, if_neg hc, if_pos hopen, hat, hnone]
  | case4 i hlt hc hopen quote hq close values stop hrest ih =>
    rw [tagBody.eq_def _ _ i, if_pos hlt, if_neg hc, if_neg hopen, hq]
    dsimp only
    rw [← ih, hrest]
  | case5 i hlt hc hopen hq ih =>
    rw [ih, tagBody.eq_def _ _ i, if_pos hlt, if_neg hc, if_neg hopen, hq]
  | case6 i hge => rw [tagBody, if_neg hge]

/-- The values in the attributes of a tag do not depend on the history of the embedded sections.
**Proof sketch.** Induction along the tag, as for `tagBody_like`. -/
lemma attributeRuns_like (t : Text) (embedded : IntervalSet) (i stop : Nat)
    (values : List (Nat × Nat)) :
    attributeRuns t embedded i stop values =
      attributeRuns t embedded.clearHistory i stop values := by
  have hat (i : Nat) : embedded.clearHistory.inString i = embedded.inString i := rfl
  fun_induction attributeRuns t embedded i stop values with
  | case1 i values hlt value hv ih =>
    rw [ih, attributeRuns.eq_def _ _ i, if_pos hlt, hv]
  | case2 i values hlt hv hname runStop ih =>
    rw [ih, attributeRuns.eq_def _ _ i, if_pos hlt, hv, hat, if_pos hname]
  | case3 i values hlt hv hname ih =>
    rw [ih, attributeRuns.eq_def _ _ i, if_pos hlt, hv, hat, if_neg hname]
  | case4 i values hge => rw [attributeRuns.eq_def _ _ i, if_neg hge]

/-- The scan for tags does not look at the history. -/
lemma tagStep_like (h : l.Like l') : f.tagStep l = f.tagStep l' := by
  refine eq_of_like (fun l => ?_) h
  have htag (start : Nat) : f.tagAt l start = f.tagAt l.clearHistory start := by
    have hembedded : l.clearHistory.embedded = l.embedded.clearHistory := rfl
    unfold tagAt
    simp only [hembedded, ← tagBody_like, ← attributeRuns_like]
  funext pos u
  unfold tagStep
  simp only [htag]
  rfl

/-- The search for tokens does not look at the history. -/
lemma tokenStep_like (h : l.Like l') : f.tokenStep l = f.tokenStep l' :=
  eq_of_like (fun _ => rfl) h

/-- The search for variables does not look at the history. -/
lemma variableStep_like (h : l.Like l') : f.variableStep l = f.variableStep l' :=
  eq_of_like (fun _ => rfl) h

/-- The search for single bytes does not look at the history. -/
lemma markStep_like (h : l.Like l') : f.markStep l = f.markStep l' :=
  eq_of_like (fun _ => rfl) h

/-- The step that maps block comments, with the comments so far as its state.

**Proof sketch.** The step asks the sets of the layout, and the comments so far, for what they hold
in this pass. Beyond that it reads the text only, so both steps go the same way. -/
lemma blockCommentStep_alike (h : l.Like l') (condition : Condition) (opener closer : Mark)
    (ignoreQuoted : Bool) (pos : Nat) (blocks blocks' : IntervalSet) (hb : blocks.Like blocks') :
    Alike (f.blockCommentStep l condition opener closer ignoreQuoted pos blocks)
      (f.blockCommentStep l' condition opener closer ignoreQuoted pos blocks')
      (Sweep.Move.Like IntervalSet.Like) := by
  have hrefuses (start : Nat) : f.refusesBlockComment l condition ignoreQuoted start blocks =
      f.refusesBlockComment l' condition ignoreQuoted start blocks' := by
    show f.refusesBlockComment l.clearHistory condition ignoreQuoted start blocks.clearHistory =
      f.refusesBlockComment l'.clearHistory condition ignoreQuoted start blocks'.clearHistory
    rw [h.clearHistory_eq, hb.clearHistory_eq]
  unfold blockCommentStep
  refine .bind (.same fun _ _ => trivial) fun _ _ _ => ?_
  cases f.text.find opener pos f.hi with
  | none => exact .pure .stop
  | some start =>
    dsimp only
    rw [hrefuses start]
    refine .bind (.same fun _ _ => trivial) fun refused _ hr => ?_
    obtain ⟨rfl, -⟩ := hr
    cases refused with
    | true => exact .pure (.go _ _ hb)
    | false =>
      refine .bind (.same fun _ _ => trivial) fun _ _ _ => ?_
      exact .pure (.go _ _ (hb.add _))

/-- Sections that are alike stay so when a region is added to both. -/
lemma addRegion_like {embedded embedded' : IntervalSet} (h : embedded.Like embedded') (r : Region) :
    (addRegion embedded r).Like (addRegion embedded' r) := by
  unfold addRegion
  split
  · exact h
  · exact h.add _

/-- The step that maps embedded sections, with the sections so far as its state.

**Proof sketch.** As for block comments. The region at an opener, and whether the opener counts, is
asked of the current pass. -/
lemma regionStep_alike (h : l.Like l') (startTag endTag : Mark) (element : Bool) (name : String)
    (pos : Nat) (embedded embedded' : IntervalSet) (he : embedded.Like embedded') :
    Alike (f.regionStep l startTag endTag element name pos embedded)
      (f.regionStep l' startTag endTag element name pos embedded')
      (Sweep.Move.Like IntervalSet.Like) := by
  -- what a step asks of the layout has nothing to do with earlier passes
  have hregion (start behind code : Nat) : f.regionAt endTag element name embedded start behind code =
      f.regionAt endTag element name embedded' start behind code := by
    show f.regionAt endTag element name embedded.clearHistory start behind code =
      f.regionAt endTag element name embedded'.clearHistory start behind code
    rw [he.clearHistory_eq]
  have hinside (start : Nat) : embedded.inString start = embedded'.inString start := by
    show embedded.clearHistory.inString start = embedded'.clearHistory.inString start
    rw [he.clearHistory_eq]
  have hcommented (start : Nat) : l.blockComments.inString start = l'.blockComments.inString start := by
    show l.clearHistory.blockComments.inString start = l'.clearHistory.blockComments.inString start
    rw [h.clearHistory_eq]
  unfold regionStep
  refine .bind (.same fun _ _ => trivial) fun _ _ _ => ?_
  cases f.text.find startTag pos f.hi with
  | none => exact .pure .stop
  | some start =>
    dsimp only
    rw [hinside start, hcommented start]
    split
    · exact .pure (.go _ _ he)
    · cases f.codeStart element (start + startTag.length) with
      | none => exact .pure (.go _ _ he)
      | some code =>
        dsimp only
        rw [hregion]
        refine .bind (.same fun _ _ => trivial) fun r _ hr => ?_
        obtain ⟨rfl, -⟩ := hr
        exact .pure (.go _ _ (addRegion_like he r))

end Frame

end LexPaint
