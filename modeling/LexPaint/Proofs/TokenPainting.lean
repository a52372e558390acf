import LexPaint.Proofs.PassAgreement
import LexPaint.Proofs.TokenTwins

set_option relaxedAutoImplicit false
set_option autoImplicit false

/-!
# Painting tokens of two documents that share a part

What is painted last at an offset shows there, so painting some ranges in one style shows that style
wherever one of the ranges lies. Tokens that reach into a range shared by two scopes start there.
So a program that only paints tokens keeps the two canvases equal in the range, if both layouts say
the same about it.

## Main definitions

* `Buffer.TwinStyles`: two canvases that look the same in a shared range.
* `Primitive.paintsTokens`: a program that paints tokens only.

## Main results

* `Scene.styles_foldl_paint`: what shows after painting some ranges.
* `Primitive.runAll_twin`: a program that paints tokens, run over both documents.
-/

namespace LexPaint

/-! ### Painting some ranges -/

namespace Scene

/-- What shows after painting a range of the document: the style in the range, and the earlier styles
elsewhere. -/
lemma styles_document_paint {t : Text} {c : Buffer} (hc : c.text = t) (start stop i : Nat)
    (style : Style) : ((document t).paint c start stop style).styles[i]? =
      if start ≤ i ∧ i < stop ∧ i < t.size then some style else c.styles[i]? := by
  have hsize := c.size_styles
  rw [styles_paint]
  congr 1
  rw [eq_iff_iff]
  subst hc
  simp only [document]
  omega

/-- What is painted last shows: some ranges in one style show that style where one of them lies.

**Proof sketch.** Induction on the ranges. Later ones are painted over earlier ones, but all of them
have one style. -/
lemma styles_foldl_paint {α : Type} (g : α → Nat × Nat) {t : Text} {c : Buffer} (hc : c.text = t)
    (xs : List α) (style : Style) {i : Nat} (hi : i < t.size) :
    (xs.foldl (fun c x => (document t).paint c (g x).1 (g x).2 style) c).styles[i]? =
      if xs.any (fun x => (g x).1 ≤ i && i < (g x).2) then some style else c.styles[i]? := by
  induction xs generalizing c with
  | nil => rfl
  | cons x rest ih =>
    rw [List.foldl_cons, ih (by rw [text_paint, hc]), styles_document_paint hc, List.any_cons]
    by_cases hrest : rest.any (fun x => (g x).1 ≤ i && i < (g x).2) = true
    · rw [if_pos hrest, if_pos (by rw [hrest, Bool.or_true])]
    · rw [if_neg hrest]
      rw [Bool.not_eq_true] at hrest
      rw [hrest, Bool.or_false]
      congr 1
      simp [hi]

end Scene

/-! ### Two canvases -/

/-- Two canvases look the same in a range that their documents share. -/
def Buffer.TwinStyles (c c₀ : Buffer) (b b₀ n : Nat) : Prop :=
  ∀ k, k < n → c.styles[b + k]? = c₀.styles[b₀ + k]?

namespace Frame

variable {f f₀ : Frame} {l l₀ : Layout} {b b₀ n : Nat}
variable {step step₀ : Nat → Nat → Unit → Checked (Sweep.Move Unit (Nat × Nat))}

/-- A pass over the document looks for tokens in the whole scope. -/
lemma WellFormed.tokenRange_document (hf : f.WellFormed) :
    (Scene.document f.text).tokenRange f = (f.lo, f.hi) := by
  have h1 := hf.ordered
  have h2 := hf.hi_le
  simp only [Scene.tokenRange, Scene.document, Prod.mk.injEq]
  omega

/-- If the scope is the document, it looks for them in the whole text. -/
lemma Spans.tokenRange_document (hf : f.Spans) :
    (Scene.document f.text).tokenRange f = (0, f.text.size) := by
  simp only [Scene.tokenRange, Scene.document, hf.lo_eq, hf.hi_eq, Nat.max_self, Nat.min_self,
    Nat.max_zero]

/-- What two scopes share is what lies in the scope of a section of the document.

**Proof sketch.** The common part starts and ends where a line does, or with its document, so it is a
section. What the section has in common with the scope is what the scopes share. -/
lemma Shares.exists_section (h : f.Shares f₀ b b₀ n) (hn : 0 < n) :
    ∃ s : Scene, s.WellFormed ∧ s.text = f.text ∧ s.tokenRange f = (b, b + n) := by
  obtain ⟨c, c₀, d, m, htwin, h1, -, h3, -, h5, -⟩ := h
  refine ⟨⟨f.text, c, c + m, false⟩, ⟨htwin.valid, Nat.le_add_right _ _, ?_, ?_⟩, rfl, ?_⟩
  · rcases htwin.opens with ⟨rfl, -⟩ | hb
    · exact .inl Text.startsLine_zero
    · exact .inr (.inr (hb (by omega)))
  · rcases htwin.closes with ⟨hs, -⟩ | hb
    · exact .inr (.inl hs)
    · exact .inl (.inr ⟨by show 0 < c + m; omega, hb (by omega)⟩)
  · simp only [Scene.tokenRange, Prod.mk.injEq]
    omega

/-- Whether some tokens of a scope reach an offset of a section is decided by those that start in the
section.

**Proof sketch.** The scan can be cut where the section starts and ends. A token that starts in front
of the section ends there too, since it lies on one line, and one that starts behind it does not
reach back. -/
lemma Scans.any_tokens (hscan : f.Scans step) (hcuts : f.Cuts step) (hf : f.WellFormed) {s : Scene}
    (hs : s.WellFormed) (ht : s.text = f.text) {start stop : Nat}
    (hrange : s.tokenRange f = (start, stop)) {h h' : Sweep.Harvest (Nat × Nat)}
    (hfull : Sweep.collect (step f.hi) f.hi f.lo () = .ok h)
    (hpart : Sweep.collect (step stop) stop start () = .ok h') {i : Nat} (h1 : start ≤ i)
    (h2 : i < stop) :
    h.items.toList.any (fun token => token.1 ≤ i && i < token.2) =
      h'.items.toList.any (fun token => token.1 ≤ i && i < token.2) := by
  have hscope : f.TokenRange f.lo f.hi :=
    ⟨Nat.le_refl _, hf.ordered, hf.hiBoundary, fun _ => Nat.le_refl _, fun _ => .inr rfl⟩
  have hin := (hscan.collect_ensures hscope hf.loBoundary).elim hfull
  have hitems := hscan.tokens_in_section hcuts hf hs ht hfull
    (show Sweep.collect (step (s.tokenRange f).2) (s.tokenRange f).2 (s.tokenRange f).1 () = .ok h'
      by rw [hrange]; exact hpart)
  simp only [Scene.tokenRange, Prod.mk.injEq] at hrange
  rw [hitems, Bool.eq_iff_iff, List.any_eq_true, List.any_eq_true]
  constructor
  · rintro ⟨token, htoken, hcover⟩
    refine ⟨token, List.mem_filter.mpr ⟨htoken, ?_⟩, hcover⟩
    obtain ⟨-, -, hline⟩ := hin token (by simpa using htoken)
    simp only [Bool.and_eq_true, decide_eq_true_eq] at hcover ⊢
    refine ⟨Nat.le_of_not_lt fun hlt => ?_, by omega⟩
    -- a token that starts before the section ends before it
    have := (ht ▸ hs.startCut).le_of_noNewline hline.noNewline hline.stop_le hlt
    omega
  · rintro ⟨token, htoken, hcover⟩
    exact ⟨token, (List.mem_filter.mp htoken).1, hcover⟩

end Frame

namespace Pass

variable {f f₀ : Frame} {l l₀ : Layout} {c c₀ : Buffer} {b b₀ n : Nat}
variable {step step₀ : Nat → Nat → Unit → Checked (Sweep.Move Unit (Nat × Nat))}

/-- What shows in a document after painting the tokens of a scan.

**Proof sketch.** `styles_foldl_paint` says what shows after painting the tokens of the whole scope,
and by `any_tokens` those that start in the section decide that. -/
lemma styles_paintTokens {s : Scene} (hscan : f.Scans step) (hcuts : f.Cuts step)
    (hf : f.WellFormed) (hs : s.WellFormed) (ht : s.text = f.text) {start stop : Nat}
    (hrange : s.tokenRange f = (start, stop)) (hc : c.text = f.text) {style : Style} {d : Buffer}
    {h' : Sweep.Harvest (Nat × Nat)} (hd : paintTokens (.document f.text) f step style c = .ok d)
    (hpart : Sweep.collect (step stop) stop start () = .ok h') {i : Nat} (h1 : start ≤ i)
    (h2 : i < stop) :
    d.styles[i]? =
      if h'.items.toList.any (fun token => token.1 ≤ i && i < token.2) then some style
      else c.styles[i]? := by
  unfold paintTokens at hd
  rw [hf.tokenRange_document] at hd
  obtain ⟨h, hfull, hd⟩ := bind_eq_ok.mp hd
  cases hd
  have hsize := ht ▸ hs.stop_le
  rw [← Array.foldl_toList, ← hscan.any_tokens hcuts hf hs ht hrange hfull hpart h1 h2]
  simp only [Scene.tokenRange, Prod.mk.injEq] at hrange
  exact Scene.styles_foldl_paint (fun token => token) hc _ _ (by omega)

/-- Tokens that are moved by an offset reach the moved offset. -/
lemma any_shifted {b k : Nat} (tokens : List (Nat × Nat)) :
    (tokens.map (Sweep.shift b)).any (fun token => token.1 ≤ b + k && b + k < token.2) =
      tokens.any (fun token => token.1 ≤ k && k < token.2) := by
  rw [List.any_map]
  refine List.any_congr rfl fun token => ?_
  simp [Sweep.shift]

/-- Painting the tokens of two scopes keeps a range that they share equal, if the scans take the
same steps there.

**Proof sketch.** Both ranges are sections, so `styles_paintTokens` reduces what shows there to the
tokens that start there. These are the same up to the offset, because the scans take the same steps. -/
lemma paintTokens_twin (h : f.Twin f₀ l l₀ b b₀ n) (hscan : f.Scans step) (hcuts : f.Cuts step)
    (hscan₀ : f₀.Scans step₀) (hcuts₀ : f₀.Cuts step₀)
    (hsteps : ∀ k, Alike (step (b + n) (b + k) ()) (step₀ (b₀ + n) (b₀ + k) ())
      (Sweep.Move.Shifted b b₀))
    (hc : c.text = f.text) (hc₀ : c₀.text = f₀.text) (hview : c.TwinStyles c₀ b b₀ n)
    (style : Style) :
    Alike (paintTokens (.document f.text) f step style c)
      (paintTokens (.document f₀.text) f₀ step₀ style c₀) fun d d₀ =>
        d.text = f.text ∧ d₀.text = f₀.text ∧ d.TwinStyles d₀ b b₀ n := by
  have hf := h.wellFormed
  have hf₀ := h.wellFormed₀
  have hscene := Scene.wellFormed_whole hf.valid false
  have hscene₀ := Scene.wellFormed_whole hf₀.valid false
  intro d d₀ hd hd₀
  refine ⟨((paintTokens_ensures hscene hf rfl hscan style c).elim hd).trans hc,
    ((paintTokens_ensures hscene₀ hf₀ rfl hscan₀ style c₀).elim hd₀).trans hc₀, fun k hk => ?_⟩
  obtain ⟨s, hs, ht, hrange⟩ := h.shares.exists_section (by omega)
  obtain ⟨s₀, hs₀, ht₀, hrange₀⟩ := h.shares.symm.exists_section (by omega)
  obtain ⟨hr, hrb⟩ := Frame.tokenRange_fits hs hf ht
  obtain ⟨hr₀, hrb₀⟩ := Frame.tokenRange_fits hs₀ hf₀ ht₀
  rw [hrange] at hr hrb
  rw [hrange₀] at hr₀ hrb₀
  obtain ⟨h', hh', -⟩ := hscan.collect_ensures hr hrb
  obtain ⟨h₀', hh₀', -⟩ := hscan₀.collect_ensures hr₀ hrb₀
  obtain ⟨tokens, htokens, htokens₀⟩ := Sweep.collect_shifted hsteps h' h₀' hh' hh₀'
  rw [styles_paintTokens hscan hcuts hf hs ht hrange hc hd hh' (Nat.le_add_right _ _)
      (Nat.add_lt_add_left hk _),
    styles_paintTokens hscan₀ hcuts₀ hf₀ hs₀ ht₀ hrange₀ hc₀ hd₀ hh₀' (Nat.le_add_right _ _)
      (Nat.add_lt_add_left hk _), htokens, htokens₀, any_shifted, any_shifted, hview k hk]

end Pass

/-! ### Programs that paint tokens -/

namespace Primitive

/-- The condition for the next primitive, if this one only paints tokens. -/
def tokenCondition (condition : Condition) : Primitive → Option Condition
  | .setCondition next => some next
  | .keywords .. => some .unconditional
  | .extensibleKeyword .. => some .unconditional
  | .signedVariable .. => some .unconditional
  | .marks .. => some condition
  | _ => none

/-- Whether a program only paints tokens, each under a condition that looks at the character behind
its start at most. -/
def paintsTokens (dialect : Dialect) : Condition → List Primitive → Bool
  | _, [] => true
  | condition, primitive :: rest =>
    dialect.looksAhead condition &&
      match primitive.tokenCondition condition with
      | some next => paintsTokens dialect next rest
      | none => false

/-- Two passes over scopes that share a range: their layouts are given, and their canvases look the
same in the range. -/
structure PassTwin (f f₀ : Frame) (l l₀ : Layout) (b b₀ n : Nat) (due : Condition)
    (p p₀ : Pass) : Prop where
  text : p.canvas.text = f.text
  text₀ : p₀.canvas.text = f₀.text
  layout : p.layout = l
  layout₀ : p₀.layout = l₀
  condition : p.condition = due
  condition₀ : p₀.condition = due
  quiet : p.repair = none
  quiet₀ : p₀.repair = none
  view : p.canvas.TwinStyles p₀.canvas b b₀ n

variable {f f₀ : Frame} {l l₀ : Layout} {b b₀ n : Nat} {condition next : Condition} {p p₀ : Pass}

/-- Painting the occurrences of a mark keeps a shared range equal. -/
lemma paintOccurrences_twin (h : f.Twin f₀ l l₀ b b₀ n)
    (hc : f.dialect.looksAhead condition = true) {needle : Mark} (hn : needle.IsPlain)
    {tokenEnd tokenEnd₀ : Frame.TokenEnd} (hend : Frame.TokenEnd.Defined f needle tokenEnd)
    (hend₀ : Frame.TokenEnd.Defined f₀ needle tokenEnd₀)
    (hshift : Frame.TokenEnd.Shifted f b b₀ n needle tokenEnd tokenEnd₀) {c c₀ : Buffer}
    (hview : c.text = f.text ∧ c₀.text = f₀.text ∧ c.TwinStyles c₀ b b₀ n) (style : Style) :
    Alike (Pass.paintOccurrences (.document f.text) f l condition needle tokenEnd style c)
      (Pass.paintOccurrences (.document f₀.text) f₀ l₀ condition needle tokenEnd₀ style c₀)
      fun d d₀ => d.text = f.text ∧ d₀.text = f₀.text ∧ d.TwinStyles d₀ b b₀ n := by
  unfold Pass.paintOccurrences
  split
  · exact .ok hview
  · exact Pass.paintTokens_twin h (Frame.tokenStep_scans h.wellFormed condition hn hend)
      (fun _ _ hr => Frame.tokenStep_cutsAt h.wellFormed condition hn hend hr)
      (Frame.tokenStep_scans h.wellFormed₀ condition hn hend₀)
      (fun _ _ hr => Frame.tokenStep_cutsAt h.wellFormed₀ condition hn hend₀ hr)
      (Frame.tokenStep_shifted h hc hn hshift) hview.1 hview.2.1 hview.2.2 style

/-- A primitive that paints tokens keeps a shared range equal.

**Proof sketch.** One case for each kind of primitive that paints tokens. Keywords and extensible
words are the occurrences of marks, and names and single bytes are scans of their own. In every case
the steps of the scans are the same in both documents. A primitive that sets the condition paints
nothing. -/
lemma run_twin (h : f.Twin f₀ l l₀ b b₀ n) (hc : f.dialect.looksAhead condition = true)
    {primitive : Primitive} {opened : Bool} (hsound : sound opened primitive = true)
    (hseal : needsSeal primitive = true → f.text.Sealed f.hi ∧ f₀.text.Sealed f₀.hi)
    (hnext : primitive.tokenCondition condition = some next)
    (hp : PassTwin f f₀ l l₀ b b₀ n condition p p₀) :
    Alike (run (.document f.text) primitive f p) (run (.document f₀.text) primitive f₀ p₀)
      (PassTwin f f₀ l l₀ b b₀ n next) := by
  have hview := And.intro hp.text (And.intro hp.text₀ hp.view)
  cases primitive with
  | setCondition c =>
    obtain rfl := Option.some.inj hnext
    simp only [run]
    exact .ok { hp with condition := rfl, condition₀ := rfl }
  | keywords words wholeWord notAfter style =>
    obtain rfl := Option.some.inj hnext
    simp only [sound, List.all_eq_true, decide_eq_true_eq] at hsound
    simp only [run]
    unfold Pass.paintKeywords
    rw [hp.layout, hp.layout₀, hp.condition, hp.condition₀]
    refine .bind (.foldlM (R := fun c c₀ : Buffer => c.text = f.text ∧ c₀.text = f₀.text ∧
      c.TwinStyles c₀ b b₀ n) hview fun word hword c c₀ hcc => ?_) fun d d₀ hd => .pure ?_
    · have hw := hsound word hword
      exact paintOccurrences_twin h hc hw (Frame.wordEnd_defined hw _ _)
        (Frame.wordEnd_defined hw _ _)
        (.inside (fun _ _ _ htwin => Frame.wordEnd_shifted htwin hw _ _) h.shares.inside) hcc style
    · exact { hp with text := hd.1, text₀ := hd.2.1, layout := rfl, layout₀ := rfl,
                      condition := rfl, condition₀ := rfl, view := hd.2.2 }
  | extensibleKeyword base suffixes style =>
    obtain rfl := Option.some.inj hnext
    simp only [sound, Bool.and_eq_true, List.all_eq_true, decide_eq_true_eq] at hsound
    simp only [run]
    unfold Pass.paintExtensible
    rw [hp.layout, hp.layout₀, hp.condition, hp.condition₀]
    refine .bind (paintOccurrences_twin h hc hsound.1
      (Frame.extendedEnd_defined h.wellFormed hsound.1 hsound.2)
      (Frame.extendedEnd_defined h.wellFormed₀ hsound.1 hsound.2)
      (.inside (fun _ _ _ htwin => Frame.extendedEnd_shifted htwin hsound.1 hsound.2) h.shares.inside)
      hview style) fun d d₀ hd => .pure ?_
    exact { hp with text := hd.1, text₀ := hd.2.1, layout := rfl, layout₀ := rfl,
                    condition := rfl, condition₀ := rfl, view := hd.2.2 }
  | signedVariable sign ends exceptions =>
    obtain rfl := Option.some.inj hnext
    simp only [sound, bne_iff_ne] at hsound
    obtain ⟨hsealed, hsealed₀⟩ := hseal rfl
    have hf := h.wellFormed
    have hf₀ := h.wellFormed₀
    simp only [run]
    unfold Pass.paintVariables
    rw [hp.layout, hp.layout₀, hp.condition, hp.condition₀]
    refine .bind (Pass.paintTokens_twin h
      (Frame.variableStep_scans hf _ hsound ends exceptions hsealed)
      (fun _ _ hr => Frame.variableStep_cutsAt hf _ hsound ends exceptions hsealed hr)
      (Frame.variableStep_scans hf₀ _ hsound ends exceptions hsealed₀)
      (fun _ _ hr => Frame.variableStep_cutsAt hf₀ _ hsound ends exceptions hsealed₀ hr)
      (Frame.variableStep_shifted h hc hsound ends exceptions) hp.text hp.text₀ hp.view _)
      fun d d₀ hd => .pure ?_
    exact { hp with text := hd.1, text₀ := hd.2.1, layout := rfl, layout₀ := rfl,
                    condition := rfl, condition₀ := rfl, view := hd.2.2 }
  | marks bytes style =>
    obtain rfl := Option.some.inj hnext
    simp only [sound, List.all_eq_true, Bool.and_eq_true, decide_eq_true_eq, bne_iff_ne] at hsound
    simp only [run]
    unfold Pass.paintMarks
    rw [hp.layout, hp.layout₀]
    refine .bind (Pass.paintTokens_twin h (Frame.markStep_scans h.wellFormed hsound)
      (fun _ _ hr => Frame.markStep_cutsAt h.wellFormed hsound hr)
      (Frame.markStep_scans h.wellFormed₀ hsound)
      (fun _ _ hr => Frame.markStep_cutsAt h.wellFormed₀ hsound hr)
      (Frame.markStep_shifted h bytes) hp.text hp.text₀ hp.view style) fun d d₀ hd => .pure ?_
    exact { hp with text := hd.1, text₀ := hd.2.1, layout := rfl, layout₀ := rfl, view := hd.2.2 }
  | quotes => cases hnext
  | lineComments => cases hnext
  | blockComments => cases hnext
  | heredocs => cases hnext
  | quoteOperators => cases hnext
  | tags => cases hnext
  | innerSection => cases hnext
  | embedScope => cases hnext
  | ifContains => cases hnext

/-- **Tokens in a shared range.** A program that paints tokens, run over two scopes that share a
range, keeps the canvases equal there.

**Proof sketch.** Induction on the program. The layouts stay as they are, so they say the same about
the range throughout. -/
theorem runAll_twin (h : f.Twin f₀ l l₀ b b₀ n) {program : List Primitive} {opened : Bool}
    (hsound : soundAll opened program = true)
    (hseal : needsSealAll program = true → f.text.Sealed f.hi ∧ f₀.text.Sealed f₀.hi)
    (htokens : paintsTokens f.dialect condition program = true)
    (hp : PassTwin f f₀ l l₀ b b₀ n condition p p₀) :
    Alike (runAll (.document f.text) program f p) (runAll (.document f₀.text) program f₀ p₀)
      fun q q₀ => ∃ last, PassTwin f f₀ l l₀ b b₀ n last q q₀ := by
  induction program generalizing p p₀ condition opened with
  | nil =>
    simp only [runAll]
    exact .ok ⟨condition, hp⟩
  | cons primitive rest ih =>
    simp only [soundAll, Bool.and_eq_true] at hsound
    simp only [paintsTokens, Bool.and_eq_true] at htokens
    obtain ⟨hlook, htokens⟩ := htokens
    rw [runAll_cons hp.quiet, runAll_cons hp.quiet₀]
    cases hnext : primitive.tokenCondition condition with
    | none =>
      rw [hnext] at htokens
      cases htokens
    | some next =>
      rw [hnext] at htokens
      simp only [needsSealAll, Bool.or_eq_true] at hseal
      exact .bind (run_twin h hlook hsound.1 (fun hn => hseal (.inl hn)) hnext hp)
        fun q q₀ hq => ih hsound.2 (fun hn => hseal (.inr hn)) htokens hq

end Primitive

end LexPaint
