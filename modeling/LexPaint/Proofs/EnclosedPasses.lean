import LexPaint.Proofs.EnclosedScans
import LexPaint.Proofs.LiteralEnds
import LexPaint.Proofs.PassFrame

set_option relaxedAutoImplicit false
set_option autoImplicit false

/-!
# Programs over scopes inside documents

A program that runs over an embedded section maps there what it maps in the text of the section as a
document of its own. Requests for repair do not come up inside sections, and what the program paints is
of no account for what it maps. It paints in the section only.

## Main definitions

* `Pass.Moved`: a pass over a section and one over its text, side by side.
* `Primitive.standsAlone`: the primitives of embedded languages.
* `Scene.within`: the part of a section to paint that lies in a range.
* `Frame.KeepsTokens`: the tokens of a scan lie in the scope.

## Main results

* `Primitive.run_moved`, `Primitive.runAll_moved`: what a primitive and a program map.
* `Primitive.run_within`, `Primitive.runAll_within`: where they paint.
-/

namespace LexPaint

/-- A pass over a section and one over its text, which have mapped the same up to the offset of the
section. -/
structure Pass.Moved (b : Nat) (p p₀ : Pass) : Prop where
  layout : p.layout = p₀.layout.shift b
  condition : p.condition = p₀.condition
  noBlock : p₀.condition ≠ .textBlock
  quiet : p.repair = none
  quiet₀ : p₀.repair = none

namespace Pass

variable {s s₀ : Scene} {f : Frame} {u : Text} {p p₀ : Pass}

/-- Inside sections no changes are looked for. -/
lemma repairIf_of_inner (hf : f.outermost = false) (p : Pass) (changed : Bool)
    (reason : RepairReason) : p.repairIf s f changed reason = p := by
  unfold repairIf
  rw [if_neg]
  simp [Scene.checks, hf]

/-- Mapping strings in a section and in its text. -/
lemma mapQuotes_moved (h : f.Encloses u) (hf : f.outermost = false) (hs₀ : s₀.detect = false)
    (hp : p.Moved f.lo p₀) (singleLine : Bool) :
    Alike (p.mapQuotes s f singleLine) (p₀.mapQuotes s₀ (.document u f.dialect) singleLine)
      (Pass.Moved f.lo) := by
  unfold mapQuotes
  rw [hp.layout, hp.condition]
  refine .bind (P := fun _ _ => True) (fun _ _ _ _ => trivial) fun _ _ _ => ?_
  refine .bind (h.collect_moved (fun _ _ _ _ hc => h.quoteStep hp.noBlock singleLine hc) h.cursor) ?_
  rintro _ harvest rfl
  refine .pure ?_
  rw [repairIf_of_inner hf, repairIf_of_not_detect hs₀]
  refine ⟨Layout.ext ?_ rfl rfl rfl rfl rfl rfl rfl, rfl, by simp, hp.quiet, hp.quiet₀⟩
  show ((p₀.layout.quotes.shift f.lo).addAll (harvest.items.map _)).count _ _ = _
  rw [IntervalSet.addAll_shift, Sweep.Harvest.tested_map]
  simp [Sweep.Harvest.map, IntervalSet.shift_count, Layout.shift, Layout.mapSets]

/-- Mapping line comments in a section and in its text. -/
lemma mapLineComments_moved (h : f.Encloses u) (hf : f.outermost = false) (hs₀ : s₀.detect = false)
    (hp : p.Moved f.lo p₀) {marks : List Mark} (hmarks : ∀ m ∈ marks, m.IsPlain) :
    Alike (p.mapLineComments s f marks) (p₀.mapLineComments s₀ (.document u f.dialect) marks)
      (Pass.Moved f.lo) := by
  unfold mapLineComments
  rw [hp.layout, hp.condition]
  have hstates : Frame.Encloses.LineStates f u (f.cursor, .new marks)
      ((Frame.document u f.dialect).cursor, .new marks) :=
    ⟨h.cursor, (MarkFinder.shift_new _ _).symm, MarkFinder.sound_new hmarks⟩
  refine .bind (h.collect_moved (fun _ _ _ _ hs => h.lineCommentStep hs) hstates) ?_
  rintro _ harvest rfl
  refine .pure ?_
  dsimp only
  rw [repairIf_of_inner hf, repairIf_of_not_detect hs₀]
  refine ⟨Layout.ext rfl ?_ rfl rfl rfl rfl rfl ?_, rfl, by simp, hp.quiet, hp.quiet₀⟩
  · show ((p₀.layout.lineComments.shift f.lo).addAll (harvest.items.map _)).count _ _ = _
    rw [IntervalSet.addAll_shift, Sweep.Harvest.tested_map]
    simp [Sweep.Harvest.map, IntervalSet.shift_count, Layout.shift, Layout.mapSets]
  · show p₀.layout.commentStarts.map (f.lo + ·) ++ (harvest.items.map _).map Interval.start =
      (p₀.layout.commentStarts ++ harvest.items.map Interval.start).map (f.lo + ·)
    rw [Array.map_append, Array.map_map, Array.map_map]
    rfl

/-- Mapping block comments in a section and in its text. -/
lemma mapBlockComments_moved (h : f.Encloses u) (hp : p.Moved f.lo p₀) (opener closer : Mark)
    (ignoreQuoted : Bool) :
    Alike (p.mapBlockComments s f opener closer ignoreQuoted)
      (p₀.mapBlockComments s₀ (.document u f.dialect) opener closer ignoreQuoted)
      (Pass.Moved f.lo) := by
  unfold mapBlockComments
  rw [hp.layout, hp.condition]
  refine .bind (h.collect_moved (R := fun blocks blocks₀ => blocks = blocks₀.shift f.lo)
    (fun _ _ blocks₀ _ hblocks => hblocks ▸ h.blockCommentStep opener closer ignoreQuoted blocks₀)
    rfl) ?_
  rintro _ harvest rfl
  refine .pure ⟨Layout.ext rfl rfl ?_ rfl rfl rfl rfl rfl, rfl, by simp, hp.quiet, hp.quiet₀⟩
  exact IntervalSet.addAll_shift harvest.items

/-- Heredocs that are moved before they are added, or after. -/
lemma foldl_addHeredoc_shift (b : Nat) (set : IntervalSet) (found : List (Interval × Interval)) :
    (found.map fun x => (x.1.shift b, x.2.shift b)).foldl addHeredoc (set.shift b) =
      (found.foldl addHeredoc set).shift b := by
  induction found generalizing set with
  | nil => rfl
  | cons x rest ih =>
    have hadd : addHeredoc (set.shift b) (x.1.shift b, x.2.shift b) = (addHeredoc set x).shift b := by
      unfold addHeredoc
      dsimp only
      rw [Interval.isEmpty_shift, IntervalSet.add_shift, IntervalSet.add_shift]
      split <;> rfl
    rw [List.map_cons, List.foldl_cons, List.foldl_cons, hadd, ih]

/-- Mapping heredocs in a section and in its text. -/
lemma mapHeredocs_moved (h : f.Encloses u) (hf : f.outermost = false) (hs₀ : s₀.detect = false)
    (hp : p.Moved f.lo p₀) :
    Alike (p.mapHeredocs s f) (p₀.mapHeredocs s₀ (.document u f.dialect)) (Pass.Moved f.lo) := by
  unfold mapHeredocs
  rw [show (Frame.document u f.dialect).dialect = f.dialect from rfl]
  cases f.dialect.heredocs with
  | none => exact .pure hp
  | some rules =>
    dsimp only
    rw [hp.layout, h.scope_eq]
    refine .bind (Sweep.collect_moved_zero (fun k _ _ _ hc => h.heredocStep (k := k) rules hc)
      h.cursor) ?_
    rintro _ harvest rfl
    have hsets : (harvest.map fun found => (found.1.shift f.lo, found.2.shift f.lo)).items.foldl
          addHeredoc (p₀.layout.shift f.lo).composite.heredocs =
        (harvest.items.foldl addHeredoc p₀.layout.composite.heredocs).shift f.lo := by
      rw [← Array.foldl_toList, ← Array.foldl_toList, Sweep.Harvest.map, Array.toList_map]
      exact foldl_addHeredoc_shift f.lo _ _
    refine .bind (P := fun r r₀ : CompositeSet × Bool => r.1 = r₀.1.shift f.lo) ?_ ?_
    · rw [hsets, Sweep.Harvest.tested_map]
      intro r r₀ hr hr₀
      obtain ⟨⟨set, changed⟩, hset, hr⟩ := bind_eq_ok.mp hr
      obtain ⟨⟨set₀, changed₀⟩, hset₀, hr₀⟩ := bind_eq_ok.mp hr₀
      -- whether the entries have changed makes no difference, since neither pass is checked
      have hset := entriesChanged_eq_ok hset
      have hset₀ := entriesChanged_eq_ok hset₀
      dsimp only at hset hset₀
      subst hset hset₀
      cases hr
      cases hr₀
      dsimp only [CompositeSet.shift]
      rw [IntervalSet.shift_count, IntervalSet.size_shift]
      rfl
    · rintro ⟨composite, changed⟩ ⟨composite₀, changed₀⟩ hcomposite
      dsimp only at hcomposite
      subst hcomposite
      refine .pure ?_
      dsimp only
      rw [repairIf_of_inner hf, repairIf_of_not_detect hs₀]
      exact ⟨Layout.ext rfl rfl rfl rfl rfl rfl rfl rfl, hp.condition, hp.noBlock, hp.quiet, hp.quiet₀⟩

end Pass

/-! ### Programs -/

namespace Primitive

/-- The primitives of embedded languages: they embed nothing themselves, ask for no text blocks, and look
for plain comment marks and for words that do not reach over the end of a section. -/
def standsAlone : Primitive → Bool
  | .setCondition condition => condition != .textBlock
  | .lineComments openers => openers.all fun m => decide m.IsPlain
  | .extensibleKeyword base suffixes _ => suffixes.all fun m => Mark.keepsApart (base ++ m)
  | .quotes _ | .blockComments .. | .heredocs => true
  | .keywords .. | .signedVariable .. | .marks .. => true
  | _ => false

variable {s s₀ : Scene} {f : Frame} {u : Text} {p p₀ : Pass}

/-- One primitive maps the same in a section and in its text.

**Proof sketch.** By cases on the primitive. The scans for literals take the same steps in both, and
what paints tokens leaves the layout alone. -/
theorem run_moved (h : f.Encloses u) (hf : f.outermost = false) (hs₀ : s₀.detect = false)
    {primitive : Primitive} (halone : primitive.standsAlone = true) (hp : p.Moved f.lo p₀) :
    Alike (run s primitive f p) (run s₀ primitive (.document u f.dialect) p₀) (Pass.Moved f.lo) := by
  cases primitive with
  | setCondition condition =>
    exact .ok ⟨hp.layout, rfl, by simpa [standsAlone] using halone, hp.quiet, hp.quiet₀⟩
  | quotes singleLine => exact Pass.mapQuotes_moved h hf hs₀ hp singleLine
  | lineComments openers =>
    simp only [standsAlone, List.all_eq_true, decide_eq_true_eq] at halone
    exact Pass.mapLineComments_moved h hf hs₀ hp halone
  | blockComments opener closer ignoreQuoted =>
    exact Pass.mapBlockComments_moved h hp opener closer ignoreQuoted
  | heredocs => exact Pass.mapHeredocs_moved h hf hs₀ hp
  | keywords | extensibleKeyword | signedVariable =>
    intro q q₀ hq hq₀
    obtain ⟨canvas, -, hq⟩ := bind_eq_ok.mp hq
    obtain ⟨canvas₀, -, hq₀⟩ := bind_eq_ok.mp hq₀
    cases hq
    cases hq₀
    exact ⟨hp.layout, rfl, by simp, hp.quiet, hp.quiet₀⟩
  | marks =>
    intro q q₀ hq hq₀
    obtain ⟨canvas, -, hq⟩ := bind_eq_ok.mp hq
    obtain ⟨canvas₀, -, hq₀⟩ := bind_eq_ok.mp hq₀
    cases hq
    cases hq₀
    exact ⟨hp.layout, hp.condition, hp.noBlock, hp.quiet, hp.quiet₀⟩
  | _ => cases halone

/-- **A program maps the same in a section and in its text**, up to the offset of the section.

**Proof sketch.** Induction on the program, with one primitive at a time. -/
theorem runAll_moved (h : f.Encloses u) (hf : f.outermost = false) (hs₀ : s₀.detect = false)
    {program : List Primitive} (halone : program.all standsAlone = true) (hp : p.Moved f.lo p₀) :
    Alike (runAll s program f p) (runAll s₀ program (.document u f.dialect) p₀)
      (Pass.Moved f.lo) := by
  induction program generalizing p p₀ with
  | nil => exact .ok hp
  | cons primitive rest ih =>
    rw [List.all_cons, Bool.and_eq_true] at halone
    rw [runAll_cons hp.quiet, runAll_cons hp.quiet₀]
    exact .bind (run_moved h hf hs₀ halone.1 hp) fun _ _ hq => ih halone.2 hq

end Primitive

/-! ### Painting -/

/-- The part of a section that lies in a range. -/
def Scene.within (s : Scene) (lo hi : Nat) : Scene :=
  { s with start := max s.start lo, stop := min s.stop hi }

namespace Scene.Painted

variable {s : Scene} {lo hi : Nat}

/-- Painting a range that lies in a section paints in the section only. -/
lemma paint_within {start stop : Nat} (hlo : lo ≤ start) (hhi : stop ≤ hi) (c : Buffer)
    (style : Style) : (s.within lo hi).Painted c (s.paint c start stop style) := by
  have heq : s.paint c start stop style = (s.within lo hi).paint c start stop style := by
    unfold Scene.paint Scene.within
    dsimp only
    rw [show max start (max s.start lo) = max start s.start by omega,
      show min stop (min s.stop hi) = min stop s.stop by omega]
  rw [heq]
  exact .paint .refl start stop style

/-- Painting some ranges that lie in a range. -/
lemma foldl_within {α : Type} (g : α → Nat × Nat) {xs : List α}
    (hxs : ∀ x ∈ xs, lo ≤ (g x).1 ∧ (g x).2 ≤ hi) (c : Buffer) (style : Style) :
    (s.within lo hi).Painted c
      (xs.foldl (fun canvas x => s.paint canvas (g x).1 (g x).2 style) c) := by
  induction xs generalizing c with
  | nil => exact .refl
  | cons x rest ih =>
    obtain ⟨hlo, hhi⟩ := hxs x (List.mem_cons_self ..)
    exact (paint_within hlo hhi c style).trans (ih (fun y hy => hxs y (List.mem_cons_of_mem _ hy)) _)

/-- Painting some intervals that lie in a section paints in the section only. -/
lemma paintAll_within {ivs : Array Interval} (hivs : ∀ iv ∈ ivs, lo ≤ iv.start ∧ iv.stop ≤ hi)
    (c : Buffer) (style : Style) : (s.within lo hi).Painted c (s.paintAll c ivs style) := by
  rw [Scene.paintAll, ← Array.foldl_toList]
  exact foldl_within (fun iv : Interval => (iv.start, iv.stop))
    (fun iv hiv => hivs iv (Array.mem_toList_iff.mp hiv)) c style

end Scene.Painted

/-- Wherever a scan for tokens goes on, the token that it accepts lies in the scope. -/
def Frame.KeepsTokens (f : Frame) (step : Nat → Nat → Unit → Checked (Sweep.Move Unit (Nat × Nat))) :
    Prop :=
  ∀ pos stop verdict next, f.lo ≤ pos → (pos < stop → stop ≤ f.hi) →
    step stop pos () = .ok (.go verdict next ()) →
    pos ≤ next ∧ ∀ token, verdict = .accepted token → f.lo ≤ token.1 ∧ token.2 ≤ f.hi

namespace Frame

variable {f : Frame} {l : Layout} {condition : Condition}

/-- A word lies in its scope if the end of it does. -/
lemma tokenStep_keepsTokens {needle : Mark} (hne : needle ≠ []) {tokenEnd : TokenEnd}
    (hend : ∀ start stop, f.lo ≤ start → start + needle.length ≤ f.hi →
      f.text.hasAt start needle = true → tokenEnd start = .ok (some stop) → stop ≤ f.hi) :
    f.KeepsTokens (f.tokenStep l condition needle tokenEnd) := by
  intro pos stop verdict next hlo hstop hgo
  have hlength := List.length_pos_iff.mpr hne
  unfold tokenStep at hgo
  obtain ⟨_, -, hgo⟩ := bind_eq_ok.mp hgo
  split at hgo
  · cases hgo
  · rename_i start hfind
    obtain ⟨h1, h2, hat⟩ := Text.find_bounds hfind
    -- the scan does not go back
    have hnext : start ≤ f.text.nextBoundary start := by
      unfold Text.nextBoundary
      split <;> omega
    have hhi := hstop (by omega)
    obtain ⟨tokenStop, htoken, hgo⟩ := bind_eq_ok.mp hgo
    cases tokenStop with
    | none =>
      cases hgo
      exact ⟨by omega, by simp⟩
    | some tokenStop =>
      dsimp only at hgo
      split at hgo
      · cases hgo
        exact ⟨by omega, by simp⟩
      · obtain ⟨accepted, -, hgo⟩ := bind_eq_ok.mp hgo
        cases accepted with
        | false =>
          cases hgo
          exact ⟨by omega, by simp⟩
        | true =>
          cases hgo
          refine ⟨by omega, fun token h => ?_⟩
          cases h
          exact ⟨Nat.le_trans hlo h1, hend start tokenStop (by omega) (by omega) hat htoken⟩

/-- The name of a variable ends with the scope at the latest. -/
lemma variableStep_keepsTokens (sign : Char) (ends exceptions : List Char) :
    f.KeepsTokens (f.variableStep l condition sign ends exceptions) := by
  intro pos stop verdict next hlo hstop hgo
  unfold variableStep at hgo
  obtain ⟨_, -, hgo⟩ := bind_eq_ok.mp hgo
  split at hgo
  · cases hgo
  · rename_i start hfind
    obtain ⟨h1, h2, -⟩ := Text.find_bounds hfind
    rw [length_mark_toString] at h2
    have hsize := sign.utf8Size_pos
    have hhi := hstop (by omega)
    dsimp only at hgo
    split at hgo
    · cases hgo
      exact ⟨by omega, by simp⟩
    · rename_i c hc
      split at hgo
      · cases hgo
        exact ⟨by omega, by simp⟩
      · obtain ⟨refused, -, hgo⟩ := bind_eq_ok.mp hgo
        split at hgo
        · cases hgo
          exact ⟨by omega, by simp⟩
        · obtain ⟨_, -, hgo⟩ := bind_eq_ok.mp hgo
          have hfrom : start ≤ if c = '#' then start + sign.utf8Size + 1 else start + sign.utf8Size := by
            split <;> omega
          generalize (if c = '#' then start + sign.utf8Size + 1 else start + sign.utf8Size) = nameFrom
            at hgo hfrom
          have hname : (f.text.findChar (fun c => Unicode.isBlank c || ends.contains c) nameFrom
              stop).getD stop ≤ stop := by
            cases hfound : f.text.findChar (fun c => Unicode.isBlank c || ends.contains c) nameFrom
                stop with
            | none => exact Nat.le_refl _
            | some i => exact Nat.le_of_lt (Text.findChar_bounds hfound).2.1
          split at hgo
          · cases hgo
            refine ⟨by omega, fun token h => ?_⟩
            cases h
            exact ⟨by omega, by omega⟩
          · cases hgo
            exact ⟨by omega, by simp⟩

/-- A single byte of the scope lies in it. -/
lemma markStep_keepsTokens (bytes : List UInt8) : f.KeepsTokens (f.markStep l bytes) := by
  intro pos stop verdict next hlo hstop hgo
  unfold markStep at hgo
  obtain ⟨_, -, hgo⟩ := bind_eq_ok.mp hgo
  split at hgo
  · cases hgo
  · rename_i start hfind
    obtain ⟨h1, h2, -⟩ := Text.findByte_bounds hfind
    have hhi := hstop (by omega)
    split at hgo
    · cases hgo
      exact ⟨by omega, by simp⟩
    · cases hgo
      refine ⟨by omega, fun token h => ?_⟩
      cases h
      exact ⟨by omega, by omega⟩

end Frame

namespace Pass

variable {s : Scene} {f : Frame} {u : Text} {p q : Pass}

/-- Painting the tokens of a scope paints in the scope only. -/
lemma paintTokens_within {step : Nat → Nat → Unit → Checked (Sweep.Move Unit (Nat × Nat))}
    (hstep : f.KeepsTokens step) {style : Style} {c d : Buffer}
    (h : paintTokens s f step style c = .ok d) : (s.within f.lo f.hi).Painted c d := by
  obtain ⟨harvest, hharvest, h⟩ := bind_eq_ok.mp h
  cases h
  have htokens : ∀ token ∈ harvest.items, f.lo ≤ token.1 ∧ token.2 ≤ f.hi := by
    refine Sweep.forall_mem_collect (J := fun pos _ => (s.tokenRange f).1 ≤ pos) ?_ (Nat.le_refl _)
      hharvest
    intro pos _ verdict next _ hpos hgo
    have hrange : f.lo ≤ (s.tokenRange f).1 := Nat.le_max_right _ _
    have hstop : pos < (s.tokenRange f).2 → (s.tokenRange f).2 ≤ f.hi := by
      intro hlt
      unfold Scene.tokenRange at hlt hpos ⊢
      dsimp only at hlt hpos ⊢
      omega
    obtain ⟨hnext, htoken⟩ := hstep pos _ verdict next (by omega) hstop hgo
    exact ⟨by omega, htoken⟩
  rw [← Array.foldl_toList]
  exact .foldl_within (fun token => token) (fun token ht => htokens token (by simpa using ht)) c style

/-- Painting the words of a scope paints in the scope only. -/
lemma paintOccurrences_within {needle : Mark} {tokenEnd : Frame.TokenEnd} {l : Layout}
    {condition : Condition} {style : Style}
    (hend : needle ≠ [] → ∀ start stop, f.lo ≤ start → start + needle.length ≤ f.hi →
      f.text.hasAt start needle = true → tokenEnd start = .ok (some stop) → stop ≤ f.hi)
    {c d : Buffer} (h : paintOccurrences s f l condition needle tokenEnd style c = .ok d) :
    (s.within f.lo f.hi).Painted c d := by
  unfold paintOccurrences at h
  split at h
  · cases h
    exact .refl
  · rename_i hne
    rw [List.isEmpty_iff] at hne
    exact paintTokens_within (Frame.tokenStep_keepsTokens hne (hend hne)) h

/-- Mapping strings paints in the scope only, as all of them lie in it. -/
lemma mapQuotes_within (hf : f.WellFormed) {singleLine : Bool}
    (h : p.mapQuotes s f singleLine = .ok q) : (s.within f.lo f.hi).Painted p.canvas q.canvas := by
  obtain ⟨_, -, h⟩ := bind_eq_ok.mp h
  obtain ⟨harvest, hharvest, h⟩ := bind_eq_ok.mp h
  cases h
  rw [canvas_repairIf]
  have hin := ((Frame.quotes_ensures hf _ _ _).elim hharvest).1.1
  refine .paintAll_within (fun iv hiv => ?_) p.canvas .string
  obtain ⟨h1, -, h2⟩ := hin iv (Array.mem_toList_iff.mpr hiv)
  exact ⟨h1, h2⟩

/-- Mapping line comments paints in the scope only. -/
lemma mapLineComments_within (hf : f.WellFormed) {marks : List Mark}
    (hmarks : ∀ m ∈ marks, m.IsPlain) (h : p.mapLineComments s f marks = .ok q) :
    (s.within f.lo f.hi).Painted p.canvas q.canvas := by
  obtain ⟨harvest, hharvest, h⟩ := bind_eq_ok.mp h
  cases h
  rw [canvas_repairIf]
  have hin := ((Frame.lineComments_ensures hf _ _ hmarks).elim hharvest).1.1
  refine .paintAll_within (fun iv hiv => ?_) p.canvas .comment
  obtain ⟨h1, -, h2⟩ := hin iv (Array.mem_toList_iff.mpr hiv)
  exact ⟨h1, h2⟩

/-- Mapping block comments paints in the scope only. -/
lemma mapBlockComments_within {opener closer : Mark} {ignoreQuoted : Bool}
    (h : p.mapBlockComments s f opener closer ignoreQuoted = .ok q) :
    (s.within f.lo f.hi).Painted p.canvas q.canvas := by
  obtain ⟨harvest, hharvest, h⟩ := bind_eq_ok.mp h
  cases h
  have hin : ∀ iv ∈ harvest.items, f.lo ≤ iv.start ∧ iv.stop ≤ f.hi := by
    refine Sweep.forall_mem_collect (J := fun pos _ => f.lo ≤ pos) ?_ (Nat.le_refl _) hharvest
    intro pos blocks verdict next blocks' hlo hgo
    obtain ⟨_, -, hgo⟩ := bind_eq_ok.mp hgo
    split at hgo
    · cases hgo
    · rename_i start hfind
      obtain ⟨h1, h2, -⟩ := Text.find_bounds hfind
      obtain ⟨refused, -, hgo⟩ := bind_eq_ok.mp hgo
      split at hgo
      · cases hgo
        exact ⟨by omega, by simp⟩
      · obtain ⟨_, -, hgo⟩ := bind_eq_ok.mp hgo
        cases hgo
        refine ⟨by omega, fun iv hiv => ?_⟩
        cases hiv
        refine ⟨by show f.lo ≤ start; omega, ?_⟩
        dsimp only
        split
        · rename_i i hclose
          exact (Text.find_bounds hclose).2.1
        · exact Nat.le_refl _
  exact .paintAll_within hin p.canvas .comment

/-- Mapping heredocs paints in the scope only. -/
lemma mapHeredocs_within (hf : f.WellFormed) (hplain : f.dialect.isPlain = true)
    (h : p.mapHeredocs s f = .ok q) : (s.within f.lo f.hi).Painted p.canvas q.canvas := by
  rcases mapHeredocs_cases h with
    ⟨-, rfl⟩ | ⟨rules, harvest, set, changed, hrules, hharvest, -, -, rfl⟩
  · exact .refl
  · rw [canvas_repairIf]
    have hopener : rules.opener.IsPlain := by simpa [Dialect.isPlain, hrules] using hplain
    have hin := ((Frame.heredocs_ensures hf hopener).elim hharvest).1.1
    dsimp only
    rw [← Array.foldl_toList]
    generalize p.canvas = c
    generalize harvest.items.toList = found at hin
    induction found generalizing c with
    | nil => exact .refl
    | cons x rest ih =>
      obtain ⟨h1, -, h2⟩ := hin x.1 (by simp [Frame.heredocIntervals])
      obtain ⟨h3, -, h4⟩ := hin x.2 (by simp [Frame.heredocIntervals])
      rw [List.foldl_cons]
      have hrest : ∀ iv ∈ rest.flatMap Frame.heredocIntervals,
          f.lo ≤ iv.start ∧ iv.start ≤ iv.stop ∧ iv.stop ≤ f.hi := fun iv hiv => hin iv (by
        rw [List.flatMap_cons]
        exact List.mem_append_right _ hiv)
      exact ((Scene.Painted.paint_within h1 h2 c .string).trans
        (.paint_within h3 h4 _ .string)).trans (ih _ hrest)

end Pass

namespace Primitive

variable {s : Scene} {f : Frame} {u : Text} {p q : Pass}

/-- One primitive paints in its section only.

**Proof sketch.** Literals lie in the scope. A token ends in it because the range to look for tokens in
does, apart from the suffixes of a family of words, which do not reach over the end of a section. -/
theorem run_within (h : f.Encloses u) (hf : f.WellFormed) (hplain : f.dialect.isPlain = true)
    (hend : f.text.SectionEnd f.hi) {primitive : Primitive} (halone : primitive.standsAlone = true)
    (hrun : run s primitive f p = .ok q) : (s.within f.lo f.hi).Painted p.canvas q.canvas := by
  cases primitive with
  | setCondition condition =>
    cases hrun
    exact .refl
  | quotes singleLine => exact Pass.mapQuotes_within hf hrun
  | lineComments openers =>
    simp only [standsAlone, List.all_eq_true, decide_eq_true_eq] at halone
    exact Pass.mapLineComments_within hf halone hrun
  | blockComments opener closer ignoreQuoted => exact Pass.mapBlockComments_within hrun
  | heredocs => exact Pass.mapHeredocs_within hf hplain hrun
  | keywords words wholeWord notAfter style =>
    obtain ⟨canvas, hcanvas, hrun⟩ := bind_eq_ok.mp hrun
    cases hrun
    refine Pass.foldlM_continues (fun c word d hword => ?_) hcanvas
    refine Pass.paintOccurrences_within (fun _ start stop _ hle _ hstop => ?_) hword
    unfold Frame.wordEnd at hstop
    dsimp only at hstop
    split at hstop
    · cases hstop
      exact hle
    · cases hstop
  | extensibleKeyword base suffixes style =>
    obtain ⟨canvas, hcanvas, hrun⟩ := bind_eq_ok.mp hrun
    cases hrun
    simp only [standsAlone, List.all_eq_true] at halone
    refine Pass.paintOccurrences_within (fun hne start stop hlo hle hat hstop => ?_) hcanvas
    unfold Frame.extendedEnd at hstop
    split at hstop
    · cases hstop
    · obtain ⟨_, -, hstop⟩ := bind_eq_ok.mp hstop
      dsimp only at hstop
      split at hstop
      · cases hstop
      · cases hstop
        obtain hzero | ⟨m, hm, hsuffix, hlength⟩ :=
          Frame.longestSuffix_eq_zero_or f.text (start + base.length) suffixes
        · omega
        · have hbase := List.length_pos_iff.mpr hne
          -- the base and its suffix are one word of the family, and the end of the section is a
          -- fence for it
          have hword : f.text.hasAt (f.lo + (start - f.lo)) (base ++ m) = true := by
            rw [show f.lo + (start - f.lo) = start by omega, Text.hasAt_append, hat, hsuffix]
            rfl
          have hhi := h.hi_eq
          have hfence := Text.SectionEnd.fences (h.hi_eq ▸ hend) (halone m hm)
            (List.append_ne_nil_of_left_ne_nil hne m) (start - f.lo) (by omega) hword
          rw [List.length_append] at hfence
          omega
  | signedVariable sign ends exceptions =>
    obtain ⟨canvas, hcanvas, hrun⟩ := bind_eq_ok.mp hrun
    cases hrun
    exact Pass.paintTokens_within (Frame.variableStep_keepsTokens sign ends exceptions) hcanvas
  | marks bytes style =>
    obtain ⟨canvas, hcanvas, hrun⟩ := bind_eq_ok.mp hrun
    cases hrun
    exact Pass.paintTokens_within (Frame.markStep_keepsTokens bytes) hcanvas
  | _ => cases halone

/-- **A program paints in its section only.**

**Proof sketch.** Induction on the program. -/
theorem runAll_within (h : f.Encloses u) (hf : f.WellFormed) (hplain : f.dialect.isPlain = true)
    (hend : f.text.SectionEnd f.hi) {program : List Primitive}
    (halone : program.all standsAlone = true) (hrun : runAll s program f p = .ok q) :
    (s.within f.lo f.hi).Painted p.canvas q.canvas := by
  induction program generalizing p with
  | nil =>
    cases hrun
    exact .refl
  | cons primitive rest ih =>
    rw [List.all_cons, Bool.and_eq_true] at halone
    rcases eq_or_of_runAll_cons hrun with rfl | ⟨p', hp', hrun⟩
    · exact .refl
    · exact (run_within h hf hplain hend halone.1 hp').trans (ih halone.2 hrun)

end Primitive

end LexPaint
