import LexPaint.Proofs.OutsideEdits
import LexPaint.Proofs.Shading

set_option relaxedAutoImplicit false
set_option autoImplicit false

/-!
# Two scopes whose layouts agree on a shared range

Two scopes share a range of their texts, and the same kinds of literals cover the same offsets of
it. Then all questions that tokens ask about the range have the same answers in both. So two full
passes of a program that maps literals and then paints tokens show the same styles there, if the canvases
have looked the same before.

## Main definitions

* `Layout.Twin`: two layouts that cover a shared range in the same way.
* `Pass.Blank`: the start of a program over a scope.
* `Primitive.IsPlain`: a program that maps literals and then paints tokens.

## Main results

* `Layout.Twin.frame`: the questions that tokens ask.
* `Primitive.runAll_blank`: what a full pass of a plain program has mapped.
* `Primitive.runAll_blank_twin`: two full passes show the same styles in a shared range.
-/

namespace LexPaint

/-! ### Layouts -/

/-- Two layouts cover a range that their scopes share by the same kinds of intervals. -/
def Layout.Twin (l l₀ : Layout) (b b₀ n : Nat) : Prop :=
  ∀ (Q : IntervalKind → Bool) (k : Nat), k < n → l.covers Q (b + k) = l₀.covers Q (b₀ + k)

namespace Layout

variable {l l₀ : Layout} {lo hi lo₀ hi₀ b b₀ n k pos : Nat}

/-- Literals show the same in a shared range. -/
lemma Twin.shade_eq (h : l.Twin l₀ b b₀ n) (hk : k < n) : l.shade (b + k) = l₀.shade (b₀ + k) := by
  unfold shade coversSort
  simp only [h _ k hk]

/-- Literals show the same in a shared range, over the same style. -/
lemma Twin.shadeOver_eq (h : l.Twin l₀ b b₀ n) (hk : k < n) (under : Option Style) :
    l.shadeOver (b + k) under = l₀.shadeOver (b₀ + k) under := by
  unfold shadeOver
  rw [h.shade_eq hk]

namespace Settled

/-- The set of strings answers for the offsets that strings cover. -/
lemma isSome_quotes (h : l.Settled lo hi) :
    (l.quotes.inString pos).isSome = l.coversSort .quotes pos := by
  have hmem : (RepairReason.quotes, l.quotes) ∈ l.sets := by simp [sets]
  rw [h.coversSort_eq hmem h.quotes.nested]

/-- The set of heredocs answers for the offsets that heredocs cover. -/
lemma isSome_heredocs (h : l.Settled lo hi) :
    (l.composite.heredocs.inString pos).isSome = l.coversSort .heredocs pos := by
  have hmem : (RepairReason.heredocs, l.composite.heredocs) ∈ l.sets := by simp [sets]
  rw [h.coversSort_eq hmem h.heredocs.nested]

/-- The set of quote operators answers for the offsets that they cover. -/
lemma isSome_operators (h : l.Settled lo hi) :
    (l.composite.operators.inString pos).isSome = l.coversSort .quoteOperators pos := by
  have hmem : (RepairReason.quoteOperators, l.composite.operators) ∈ l.sets := by simp [sets]
  rw [h.coversSort_eq hmem h.operators.nested]

/-- Without quote operators every heredoc counts. -/
lemma isSome_inEither (h : l.Settled lo hi) (hnone : l.composite.operators.intervals = #[]) :
    (l.composite.inEither pos).isSome = l.coversSort .heredocs pos := by
  have hoperators (i : Nat) : l.composite.operators.inString i = none :=
    IntervalSet.inString_of_empty hnone
  unfold CompositeSet.inEither CompositeSet.heredocAt
  rw [← h.isSome_heredocs]
  cases hat : l.composite.heredocs.inString pos with
  | none => simp [hoperators]
  | some start => simp [hoperators, Option.filter]

end Settled

/-- What tokens ask about a shared range has the same answer in both scopes.

**Proof sketch.** In settled layouts every question is answered by what covers the offset. -/
theorem Twin.frame {f f₀ : Frame} (h : l.Twin l₀ b b₀ n) (hf : f.WellFormed) (hf₀ : f₀.WellFormed)
    (hshares : f.Shares f₀ b b₀ n) (hd : f.dialect = f₀.dialect) (hl : l.Settled lo hi)
    (hl₀ : l₀.Settled lo₀ hi₀)
    (heither : ∀ k, k < n →
      (l.composite.inEither (b + k)).isSome = (l₀.composite.inEither (b₀ + k)).isSome) :
    f.Twin f₀ l l₀ b b₀ n := by
  have hcomment (k : Nat) (hk : k < n) : l.inComment (b + k) = l₀.inComment (b₀ + k) := by
    rw [hl.inComment_eq, hl₀.inComment_eq, coversSort, coversSort, coversSort, coversSort,
      h _ k hk, h _ k hk]
  refine ⟨hf, hf₀, hshares, hd, fun k hk => ?_, hcomment, fun k hk => ?_⟩
  · unfold inLiteral
    rw [hl.isSome_quotes, hl₀.isSome_quotes, heither k hk, hcomment k hk, coversSort, coversSort,
      h _ k hk]
  · rw [hl.any_single, hl₀.any_single, h _ k hk]

end Layout

/-! ### Full passes -/

/-- The start of a program over a scope: nothing was mapped yet. -/
structure Pass.Blank (f : Frame) (p : Pass) : Prop where
  text : p.canvas.text = f.text
  layout : p.layout.allIntervals = []
  condition : p.condition = .unconditional
  quiet : p.repair = none

/-- All sets are empty at the start. -/
lemma Pass.Blank.intervals_eq {f : Frame} {p : Pass} (h : p.Blank f) :
    ∀ entry ∈ p.layout.sets, entry.2.intervals = #[] := by
  intro entry hentry
  have := List.flatMap_eq_nil_iff.mp h.layout entry hentry
  simpa using this

/-- At the start nothing was mapped, so the canvas shows what it has shown. -/
lemma Pass.Blank.mapped {f : Frame} {p : Pass} (h : p.Blank f) : p.Mapped f p.canvas .start := by
  have hnone := h.intervals_eq
  have hall := (Layout.forall_sets (P := fun _ set => set.intervals = #[])).mp hnone
  obtain ⟨hquotes, hlines, hblocks, hheredocs, hoperators, -⟩ := hall
  have hshade (i : Nat) : p.layout.shade i = .plain := by
    simp [Layout.shade, Layout.coversSort, Layout.covers, h.layout, covers]
  exact
    { text := h.text
      settled :=
        { sorts := fun entry hentry iv hiv => by simp [hnone entry hentry] at hiv
          quotes := by rw [hquotes]; exact .nil
          lineComments := by rw [hlines]; exact .nil
          blockComments := by rw [IntervalSet.Nested, hblocks]; exact .nil
          heredocs := by rw [hheredocs]; exact .nil
          operators := by rw [hoperators]; exact .nil }
      noHeredocs := fun _ => hheredocs
      noOperators := fun _ => hoperators
      noQuotes := fun _ => hquotes
      noLineComments := fun _ => hlines
      noBlocks := fun _ => rfl
      blocks := fun iv hiv => by simp [hblocks] at hiv
      heredocs := .inl hheredocs
      operators := fun iv hiv => by simp [hoperators] at hiv
      condition := h.condition
      quiet := h.quiet
      shaded := fun i _ => (if_pos (hshade i)).symm }

namespace Primitive

/-- A program that first maps literals and then paints tokens. -/
def isPlain (dialect : Dialect) (program : List Primitive) : Bool :=
  paintsTokens dialect (mapping .start program).1.due (mapping .start program).2

variable {f f₀ : Frame} {p p₀ q q₀ : Pass} {program : List Primitive} {opened : Bool}
variable {condition : Condition}

/-- What is left of a program needs what the program needs. -/
lemma needsSealAll_of_mapping {stage : Stage} (h : needsSealAll (mapping stage program).2 = true) :
    needsSealAll program = true := by
  induction program generalizing stage with
  | nil => exact h
  | cons primitive rest ih =>
    unfold mapping at h
    split at h
    · rw [needsSealAll, ih h, Bool.or_true]
    · exact h

/-- Painting tokens leaves the layout as it is.

**Proof sketch.** What paints tokens does the same in two scopes that share a range and keeps their
layouts, and a scope shares an empty range with itself. -/
lemma layout_runAll_tokens (hf : f.WellFormed) (hsound : soundAll opened program = true)
    (hseal : needsSealAll program = true → f.text.Sealed f.hi)
    (htokens : paintsTokens f.dialect condition program = true) (hc : p.condition = condition)
    (ht : p.canvas.text = f.text) (hquiet : p.repair = none)
    (h : runAll (.document f.text) program f p = .ok q) : q.layout = p.layout := by
  have hnone (k : Nat) : ¬ k < 0 := Nat.not_lt_zero k
  -- a scope shares an empty range with itself, in particular
  have hshares : f.Shares f f.lo f.lo 0 := by
    have htwin : f.text.Twin f.text f.lo f.lo 0 :=
      ⟨hf.valid, hf.valid, fun _ _ => rfl, Nat.le_trans hf.ordered hf.hi_le,
        Nat.le_trans hf.ordered hf.hi_le, .inr fun hk => absurd hk (hnone 0),
        .inr fun hk => absurd hk (hnone 0)⟩
    have hmin : min (f.lo + 0) f.hi = f.lo + 0 := Nat.min_eq_left hf.ordered
    exact ⟨f.lo, f.lo, 0, 0, htwin, rfl, rfl, Nat.max_self _, Nat.max_self _, hmin, hmin⟩
  have htwin : f.Twin f p.layout p.layout f.lo f.lo 0 :=
    ⟨hf, hf, hshares, rfl, fun _ _ => rfl, fun _ _ => rfl, fun _ _ => rfl⟩
  obtain ⟨last, hq⟩ := runAll_twin htwin hsound (fun hn => ⟨hseal hn, hseal hn⟩) htokens
    ⟨ht, ht, rfl, rfl, hc, hc, hquiet, hquiet, fun k hk => absurd hk (hnone k)⟩ q q h h
  exact hq.layout

/-- What a full pass of a plain program maps is what its first stage maps. -/
theorem runAll_blank (hf : f.WellFormed) (hd : f.dialect.isPlain = true)
    (hsound : soundAll opened program = true)
    (hseal : needsSealAll program = true → f.text.Sealed f.hi)
    (hplain : isPlain f.dialect program = true) (hfits : p.Fits f opened) (hp : p.Blank f)
    (h : runAll (.document f.text) program f p = .ok q) :
    ∃ opened' p', soundAll opened' (mapping .start program).2 = true ∧
      p'.Mapped f p.canvas (mapping .start program).1 ∧ q.layout = p'.layout ∧
      runAll (.document f.text) (mapping .start program).2 f p' = .ok q := by
  obtain ⟨opened', p', hsound', -, hmapped, hrun⟩ := runAll_mapped hf hd hsound hfits hp.mapped h
  exact ⟨opened', p', hsound', hmapped, layout_runAll_tokens hf hsound'
    (fun hn => hseal (needsSealAll_of_mapping hn)) hplain hmapped.condition hmapped.text hmapped.quiet
    hrun, hrun⟩

/-- **Plain programs are local.** Full passes of a plain program over two scopes that share a range
show the same styles there, if the canvases have looked the same there before and what was mapped covers
the range in the same way.

**Proof sketch.** Once the literals are mapped, both canvases show the shades of their layouts, which
agree. The rest of the program paints tokens, which keeps the canvases equal. -/
theorem runAll_blank_twin {b b₀ n : Nat} (hf : f.WellFormed) (hf₀ : f₀.WellFormed)
    (hdialect : f.dialect = f₀.dialect) (hd : f.dialect.isPlain = true)
    (hsound : soundAll opened program = true)
    (hseal : needsSealAll program = true → f.text.Sealed f.hi ∧ f₀.text.Sealed f₀.hi)
    (hplain : isPlain f.dialect program = true) (hfits : p.Fits f opened)
    (hfits₀ : p₀.Fits f₀ opened) (hp : p.Blank f) (hp₀ : p₀.Blank f₀)
    (h : runAll (.document f.text) program f p = .ok q)
    (h₀ : runAll (.document f₀.text) program f₀ p₀ = .ok q₀)
    (hshares : f.Shares f₀ b b₀ n) (hview : p.canvas.TwinStyles p₀.canvas b b₀ n)
    (hl : q.layout.Twin q₀.layout b b₀ n)
    (heither : ∀ k, k < n → (q.layout.composite.inEither (b + k)).isSome =
      (q₀.layout.composite.inEither (b₀ + k)).isSome) :
    q.canvas.TwinStyles q₀.canvas b b₀ n := by
  obtain ⟨opened', p', hsound', hmapped, hlayout, hrun⟩ :=
    runAll_blank hf hd hsound (fun hn => (hseal hn).1) hplain hfits hp h
  obtain ⟨-, p₀', -, hmapped₀, hlayout₀, hrun₀⟩ :=
    runAll_blank hf₀ (hdialect ▸ hd) hsound (fun hn => (hseal hn).2) (hdialect ▸ hplain) hfits₀ hp₀ h₀
  rw [hlayout, hlayout₀] at hl heither
  have hframe := hl.frame hf hf₀ hshares hdialect hmapped.settled hmapped₀.settled heither
  have hview : p'.canvas.TwinStyles p₀'.canvas b b₀ n := by
    intro k hk
    have h1 := Nat.le_trans hshares.le_hi hf.hi_le
    have h2 := Nat.le_trans hshares.symm.le_hi hf₀.hi_le
    rw [hmapped.shaded _ (by omega), hmapped₀.shaded _ (by omega), hl.shadeOver_eq hk, hview k hk]
  obtain ⟨last, hq⟩ := runAll_twin hframe hsound'
    (fun hn => hseal (needsSealAll_of_mapping hn)) hplain
    ⟨hmapped.text, hmapped₀.text, rfl, rfl, hmapped.condition, hmapped₀.condition, hmapped.quiet,
      hmapped₀.quiet, hview⟩ q q₀ hrun hrun₀
  exact hq.view

end Primitive

end LexPaint
