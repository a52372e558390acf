import LexPaint.Proofs.SectionView
import LexPaint.Proofs.TextTwins

set_option relaxedAutoImplicit false
set_option autoImplicit false

/-!
# Tokens in a twin

Two documents share a part, and two scopes in them, which may be the documents themselves, share what
lies in both of them of this part. If both layouts say the same about the literals around every byte
there, then the tokens that start there are the same in both, up to the offset.

## Main definitions

* `Frame.Shares`: two scopes and what they share of a part that their documents share.
* `Frame.Twin`: two scopes that share a range, with layouts that say the same about it.
* `Sweep.Move.Shifted`, `Sweep.Harvest.Shifted`: steps and harvests that differ by an offset.

## Main results

* `Frame.tokenStep_shifted`, `Frame.variableStep_shifted`, `Frame.markStep_shifted`: the scans for
  tokens take the same steps.
* `Sweep.collect_shifted`: so they find the same tokens.
-/

namespace LexPaint

/-! ### Sweeps that differ by an offset -/

namespace Sweep

/-- A token moved by an offset. -/
def shift (b : Nat) (token : Nat × Nat) : Nat × Nat :=
  (b + token.1, b + token.2)

/-- Two steps that do the same, each counted from an offset of its own. -/
inductive Move.Shifted (b b₀ : Nat) : Move Unit (Nat × Nat) → Move Unit (Nat × Nat) → Prop
  | stop : Move.Shifted b b₀ .stop .stop
  | nothing (next : Nat) :
    Move.Shifted b b₀ (.go .nothing (b + next) ()) (.go .nothing (b₀ + next) ())
  | accepted (token : Nat × Nat) (next : Nat) :
    Move.Shifted b b₀ (.go (.accepted (shift b token)) (b + next) ())
      (.go (.accepted (shift b₀ token)) (b₀ + next) ())

/-- Two harvests of the same tokens, each counted from an offset of its own. -/
def Harvest.Shifted (b b₀ : Nat) (h h₀ : Harvest (Nat × Nat)) : Prop :=
  ∃ tokens : List (Nat × Nat),
    h.items.toList = tokens.map (shift b) ∧ h₀.items.toList = tokens.map (shift b₀)

variable {b b₀ n : Nat} {step step₀ : Nat → Unit → Checked (Move Unit (Nat × Nat))}

/-- Harvests stay the same up to the offset when the same token is added to both. -/
lemma Harvest.Shifted.add {h h₀ : Harvest (Nat × Nat)} (hh : h.Shifted b b₀ h₀)
    (token : Nat × Nat) :
    (h.add (.accepted (shift b token))).Shifted b b₀ (h₀.add (.accepted (shift b₀ token))) := by
  obtain ⟨tokens, h1, h2⟩ := hh
  exact ⟨tokens ++ [token], by simp [Harvest.add, h1], by simp [Harvest.add, h2]⟩

/-- Sweeps that take the same steps find the same tokens.

**Proof sketch.** Induction on what is left of the range. -/
theorem run_shifted
    (hstep : ∀ k, Alike (step (b + k) ()) (step₀ (b₀ + k) ()) (Move.Shifted b b₀)) (k : Nat)
    {h h₀ : Harvest (Nat × Nat)} (hh : h.Shifted b b₀ h₀) :
    Alike (run step (b + n) (b + k) () h) (run step₀ (b₀ + n) (b₀ + k) () h₀)
      fun r r₀ => r.1.Shifted b b₀ r₀.1 := by
  induction hm : n - k using Nat.strongRecOn generalizing k h h₀ with
  | _ m ih =>
    -- after a step that advances, the rest of the range is swept
    have hgo {next : Nat} {g g₀ : Harvest (Nat × Nat)} (hg : g.Shifted b b₀ g₀) :
        Alike
          (if b + n < b + next then (.error .outOfRange : Checked (Harvest (Nat × Nat) × Unit))
            else if b + k < b + next then run step (b + n) (b + next) () g else .ok (g, ()))
          (if b₀ + n < b₀ + next then (.error .outOfRange : Checked (Harvest (Nat × Nat) × Unit))
            else if b₀ + k < b₀ + next then run step₀ (b₀ + n) (b₀ + next) () g₀ else .ok (g₀, ()))
          fun r r₀ => r.1.Shifted b b₀ r₀.1 := by
      by_cases hnext : n < next
      · rw [if_pos (show b + n < b + next by omega)]
        intro r r₀ hr
        cases hr
      · rw [if_neg (show ¬ b + n < b + next by omega), if_neg (show ¬ b₀ + n < b₀ + next by omega)]
        by_cases hlt : k < next
        · rw [if_pos (show b + k < b + next by omega), if_pos (show b₀ + k < b₀ + next by omega)]
          exact ih (n - next) (by omega) next hg rfl
        · rw [if_neg (show ¬ b + k < b + next by omega), if_neg (show ¬ b₀ + k < b₀ + next by omega)]
          exact .ok hg
    rw [run, run]
    have hmoves := hstep k
    cases hs : step (b + k) () with
    | error fault =>
      intro r r₀ hr
      cases hr
    | ok move =>
      cases hs₀ : step₀ (b₀ + k) () with
      | error fault =>
        intro r r₀ _ hr₀
        cases hr₀
      | ok move₀ =>
        cases hmoves move move₀ hs hs₀ with
        | stop => exact .ok hh
        | nothing next => exact hgo hh
        | accepted token next => exact hgo (hh.add token)

/-- So two sweeps from the start find the same tokens. -/
theorem collect_shifted
    (hstep : ∀ k, Alike (step (b + k) ()) (step₀ (b₀ + k) ()) (Move.Shifted b b₀)) :
    Alike (collect step (b + n) b ()) (collect step₀ (b₀ + n) b₀ ()) (Harvest.Shifted b b₀) :=
  .bind (run_shifted hstep 0 ⟨[], rfl, rfl⟩) fun _ _ h => .pure h

end Sweep

/-! ### Scopes that share a part -/

/-- The scope is the whole document. -/
structure Frame.Spans (f : Frame) : Prop where
  lo_eq : f.lo = 0
  hi_eq : f.hi = f.text.size
  scope_eq : f.scope = f.text

/-- The scopes share the `n` bytes from `b` and `b₀` on: these are what lies in the scopes of a part
that their documents share, at the same place in it. -/
def Frame.Shares (f f₀ : Frame) (b b₀ n : Nat) : Prop :=
  ∃ c c₀ d m, f.text.Twin f₀.text c c₀ m ∧ b = c + d ∧ b₀ = c₀ + d ∧
    max c f.lo = b ∧ max c₀ f₀.lo = b₀ ∧ min (c + m) f.hi = b + n ∧ min (c₀ + m) f₀.hi = b₀ + n

/-- Two scopes that share a range, with layouts that say the same about it. -/
structure Frame.Twin (f f₀ : Frame) (l l₀ : Layout) (b b₀ n : Nat) : Prop where
  wellFormed : f.WellFormed
  wellFormed₀ : f₀.WellFormed
  shares : f.Shares f₀ b b₀ n
  dialect_eq : f.dialect = f₀.dialect
  inLiteral_eq : ∀ j, j < n → l.inLiteral (b + j) = l₀.inLiteral (b₀ + j)
  inComment_eq : ∀ j, j < n → l.inComment (b + j) = l₀.inComment (b₀ + j)
  single_eq : ∀ j, j < n → (l.quotes.intervalAt (b + j)).any (fun iv => iv.kind = .single) =
    (l₀.quotes.intervalAt (b₀ + j)).any (fun iv => iv.kind = .single)

/-- A condition that tokens can be tested for by looking at the character behind their start. -/
def Dialect.looksAhead (d : Dialect) (condition : Condition) : Bool :=
  d.tests.lookup condition == none || d.tests.lookup condition == some .nameFollows

namespace Frame

variable {f f₀ : Frame} {l l₀ : Layout} {b b₀ n j k : Nat} {condition : Condition}

namespace Shares

/-- Whole documents share what their texts share. -/
lemma of_spans (h : f.text.Twin f₀.text b b₀ n) (hf : f.Spans) (hf₀ : f₀.Spans) :
    f.Shares f₀ b b₀ n := by
  refine ⟨b, b₀, 0, n, h, rfl, rfl, ?_, ?_, ?_, ?_⟩
  · rw [hf.lo_eq, Nat.max_zero]
  · rw [hf₀.lo_eq, Nat.max_zero]
  · rw [hf.hi_eq, Nat.min_eq_left h.le_size]
  · rw [hf₀.hi_eq, Nat.min_eq_left h.le_size₀]

/-- What two scopes share is shared both ways. -/
lemma symm (h : f.Shares f₀ b b₀ n) : f₀.Shares f b₀ b n := by
  obtain ⟨c, c₀, d, m, htwin, h1, h2, h3, h4, h5, h6⟩ := h
  exact ⟨c₀, c, d, m, htwin.symm, h2, h1, h4, h3, h6, h5⟩

/-- What they share lies inside of what their documents share. -/
lemma inside (h : f.Shares f₀ b b₀ n) : f.text.Inside f₀.text b b₀ n := by
  obtain ⟨c, c₀, d, m, htwin, h1, h2, -, -, h5, -⟩ := h
  exact ⟨c, c₀, d, m, htwin, h1, h2, by omega⟩

/-- The shared range starts behind the start of the scope. -/
lemma lo_le (h : f.Shares f₀ b b₀ n) : f.lo ≤ b := by
  obtain ⟨c, c₀, d, m, -, -, -, h3, -⟩ := h
  omega

/-- It ends in front of the end of the scope. -/
lemma le_hi (h : f.Shares f₀ b b₀ n) : b + n ≤ f.hi := by
  obtain ⟨c, c₀, d, m, -, -, -, -, -, h5, -⟩ := h
  omega

/-- The range ends where the scope ends, or with a newline.

**Proof sketch.** If the common part ends with the document, the scope ends within it. Otherwise it
ends behind a newline, so the range, whose last byte is none, ends in front of the end of the part,
and that is where the scope ends. -/
lemma hi_eq (h : f.Shares f₀ b b₀ n) (hf : f.WellFormed) {j : Nat} (hj : j + 1 = n)
    (hline : f.text.byteAt (b + j) ≠ some newline) : f.hi = b + n := by
  have hle := hf.hi_le
  obtain ⟨c, c₀, d, m, htwin, h1, -, -, -, h5, -⟩ := h
  rcases htwin.closes with ⟨hsize, -⟩ | hn
  · omega
  · by_cases hcut : d + n = m
    · refine absurd (hn (by omega)) ?_
      rwa [show c + m - 1 = b + j by omega]
    · omega

end Shares

/-- The characters of the scope are those of the document up to its end.

**Proof sketch.** The text of the scope has the same bytes, each counted from the start of the scope.
A character that starts in front of the end of the scope ends there, too, since the scope ends
between characters. -/
lemma WellFormed.charAt_scope (hf : f.WellFormed) {pos : Nat} (hle : f.lo ≤ pos) :
    f.scope.charAt (pos - f.lo) = if pos < f.hi then f.text.charAt pos else none := by
  have hsize := hf.size_scope
  have hbyte (i : Nat) (hi : pos + i < f.hi) :
      f.scope.byteAt (pos - f.lo + i) = f.text.byteAt (pos + i) := by
    rw [hf.scope_eq, Text.byteAt_between, show f.lo + (pos - f.lo + i) = pos + i by omega, if_pos hi]
  refine Option.ext fun c => ?_
  have hpos := c.utf8Size_pos
  constructor
  · intro hc
    rw [Text.charAt_eq_some_iff] at hc
    have hfits := Text.le_size_of_hasAt hc String.utf8EncodeChar_ne_nil
    rw [String.length_utf8EncodeChar] at hfits
    rw [if_pos (by omega), Text.charAt_eq_some_iff, ← hc]
    refine Text.hasAt_congr fun i hi => (hbyte i ?_).symm
    rw [String.length_utf8EncodeChar] at hi
    omega
  · intro hc
    split at hc
    · rename_i hlt
      have hfits := Text.add_utf8Size_le hc hf.hiBoundary hlt
      rw [Text.charAt_eq_some_iff] at hc ⊢
      rw [← hc]
      refine Text.hasAt_congr fun i hi => hbyte i ?_
      rw [String.length_utf8EncodeChar] at hi
      omega
    · cases hc

namespace Twin

/-- What follows a byte in the scope is the same in both scopes, unless that byte is a newline.

**Proof sketch.** If the next byte is shared as well, both texts go on with the same character.
Otherwise the range ends here, and by `hi_eq` both scopes end with it. -/
lemma charAt_scope_eq (h : f.Twin f₀ l l₀ b b₀ n) (hj : j < n)
    (hline : f.text.byteAt (b + j) ≠ some newline) :
    f.scope.charAt (b + (j + 1) - f.lo) = f₀.scope.charAt (b₀ + (j + 1) - f₀.lo) := by
  have hlo := h.shares.lo_le
  have hlo₀ := h.shares.symm.lo_le
  have hhi := h.shares.le_hi
  have hhi₀ := h.shares.symm.le_hi
  rw [h.wellFormed.charAt_scope (by omega), h.wellFormed₀.charAt_scope (by omega),
    h.shares.inside.charAt_succ_eq hj hline]
  rcases Nat.lt_or_eq_of_le (Nat.succ_le_of_lt hj) with hlt | heq
  · rw [if_pos (by omega), if_pos (by omega)]
  · have hline₀ : f₀.text.byteAt (b₀ + j) ≠ some newline := by
      rwa [← h.shares.inside.byteAt_eq hj]
    have hend := h.shares.hi_eq h.wellFormed heq hline
    have hend₀ := h.shares.symm.hi_eq h.wellFormed₀ heq hline₀
    rw [if_neg (by omega), if_neg (by omega)]

/-- A condition that looks ahead accepts the same signs in both documents. -/
lemma accepts_alike (h : f.Twin f₀ l l₀ b b₀ n) (hc : f.dialect.looksAhead condition = true)
    (hj : j < n) (hline : f.text.byteAt (b + j) ≠ some newline) :
    Alike (f.accepts (b + j) condition) (f₀.accepts (b₀ + j) condition) Eq := by
  have hlo := h.shares.lo_le
  have hlo₀ := h.shares.symm.lo_le
  unfold accepts minus
  rw [if_pos (by omega), if_pos (by omega), ← h.dialect_eq]
  refine .bind (.ok (R := fun p p₀ => p = b + j - f.lo ∧ p₀ = b₀ + j - f₀.lo) ⟨rfl, rfl⟩)
    fun p p₀ hp => ?_
  obtain ⟨rfl, rfl⟩ := hp
  simp only [Dialect.looksAhead, Bool.or_eq_true, beq_iff_eq] at hc
  unfold Dialect.accepts
  rcases hc with hc | hc
  · rw [hc]
    exact .pure rfl
  · rw [hc]
    refine .pure ?_
    rw [show b + j - f.lo + 1 = b + (j + 1) - f.lo by omega,
      show b₀ + j - f₀.lo + 1 = b₀ + (j + 1) - f₀.lo by omega, h.charAt_scope_eq hj hline]

/-- The same signs are refused in both documents. -/
lemma refusesVariable_alike (h : f.Twin f₀ l l₀ b b₀ n) (hc : f.dialect.looksAhead condition = true)
    (hj : j < n) (hline : f.text.byteAt (b + j) ≠ some newline) :
    Alike (f.refusesVariable l condition (b + j)) (f₀.refusesVariable l₀ condition (b₀ + j)) Eq := by
  unfold refusesVariable
  rw [h.single_eq j hj, h.inComment_eq j hj]
  split
  · exact .pure rfl
  · exact .bind (h.accepts_alike hc hj hline) fun a a' ha => ha ▸ .pure rfl

end Twin

/-! ### Steps -/

/-- The end of a token that starts with a mark is the same in both documents. -/
def TokenEnd.Shifted (f : Frame) (b b₀ n : Nat) (needle : Mark) (tokenEnd tokenEnd₀ : TokenEnd) :
    Prop :=
  ∀ j, j < n → f.text.hasAt (b + j) needle = true →
    Alike (tokenEnd (b + j)) (tokenEnd₀ (b₀ + j)) fun r r₀ =>
      r = none ∧ r₀ = none ∨ ∃ len, r = some (b + j + len) ∧ r₀ = some (b₀ + j + len)

/-- It is then the same inside of the part. -/
lemma TokenEnd.Shifted.inside {needle : Mark} {tokenEnd tokenEnd₀ : TokenEnd}
    (hend : ∀ c c₀ m, f.text.Twin f₀.text c c₀ m → Shifted f c c₀ m needle tokenEnd tokenEnd₀)
    (h : f.text.Inside f₀.text b b₀ n) : Shifted f b b₀ n needle tokenEnd tokenEnd₀ := by
  obtain ⟨c, c₀, d, m, htwin, rfl, rfl, hle⟩ := h
  intro j hj hat
  rw [Nat.add_assoc] at hat ⊢
  rw [Nat.add_assoc c₀]
  exact hend c c₀ m htwin (d + j) (by omega) hat

/-- A word ends at the same place in both documents, since its mark and the character behind it are
the same. -/
lemma wordEnd_shifted (h : f.text.Twin f₀.text b b₀ n) {word : Mark} (hw : word.IsPlain)
    (wholeWord : Bool) (notAfter : List Char) :
    TokenEnd.Shifted f b b₀ n word (f.wordEnd word wholeWord notAfter)
      (f₀.wordEnd word wholeWord notAfter) := by
  intro j hj hat
  have hlen : 0 < word.length := List.length_pos_iff.mpr hw.1
  have hle := (h.hasAt_of_hasAt hw hj hat).1
  have hline (i : Nat) (h1 : j ≤ i) (h2 : i < j + word.length) :
      f.text.byteAt (b + i) ≠ some newline :=
    Text.byteAt_ne_newline hw hat (by omega) (by omega)
  have hbefore := h.charBefore_eq hj (hline j (Nat.le_refl _) (by omega))
  have hbehind := h.charAt_succ_eq (j := j + word.length - 1) (by omega)
    (hline _ (by omega) (by omega))
  rw [show j + word.length - 1 + 1 = j + word.length by omega, ← Nat.add_assoc,
    ← Nat.add_assoc] at hbehind
  unfold wordEnd
  dsimp only
  rw [hbefore, hbehind]
  split
  · exact .ok (.inr ⟨word.length, rfl, rfl⟩)
  · exact .ok (.inl ⟨rfl, rfl⟩)

/-- Behind a byte that is no newline the same suffix is the longest one. -/
lemma longestSuffix_shifted (h : f.text.Twin f₀.text b b₀ n) {suffixes : List Mark}
    (hs : ∀ m ∈ suffixes, m.IsPlain) (hj : j < n) (hline : f.text.byteAt (b + j) ≠ some newline) :
    longestSuffix f.text (b + (j + 1)) suffixes =
      longestSuffix f₀.text (b₀ + (j + 1)) suffixes := by
  have hfilter : suffixes.filter (f.text.hasAt (b + (j + 1))) =
      suffixes.filter (f₀.text.hasAt (b₀ + (j + 1))) :=
    List.filter_congr fun m hm => h.hasAt_succ_eq (hs m hm) hj hline
  unfold longestSuffix
  rw [hfilter]

/-- So does an extensible word.

**Proof sketch.** The base occurs in both documents and has no newline, so the same suffix is the
longest one that fits behind it. This suffix lies on the line and thus in the part, too. -/
lemma extendedEnd_shifted (h : f.text.Twin f₀.text b b₀ n) {base : Mark} (hb : base.IsPlain)
    {suffixes : List Mark} (hs : ∀ m ∈ suffixes, m.IsPlain) :
    TokenEnd.Shifted f b b₀ n base (f.extendedEnd base suffixes)
      (f₀.extendedEnd base suffixes) := by
  intro j hj hat
  have hlen : 0 < base.length := List.length_pos_iff.mpr hb.1
  have hle := (h.hasAt_of_hasAt hb hj hat).1
  have hline (i : Nat) (h1 : j ≤ i) (h2 : i < j + base.length) :
      f.text.byteAt (b + i) ≠ some newline :=
    Text.byteAt_ne_newline hb hat (by omega) (by omega)
  have hbefore := h.charBefore_eq hj (hline j (Nat.le_refl _) (by omega))
  -- the last byte of the base, behind which the suffix starts
  obtain ⟨last, hlast⟩ : ∃ last, j + base.length = last + 1 := ⟨j + base.length - 1, by omega⟩
  have hsuffix := longestSuffix_shifted h hs (j := last) (by omega) (hline _ (by omega) (by omega))
  -- and the last byte of the token
  have hbehind : f.text.charAt (b + (last + 1 + longestSuffix f.text (b + (last + 1)) suffixes)) =
      f₀.text.charAt (b₀ + (last + 1 + longestSuffix f.text (b + (last + 1)) suffixes)) := by
    rcases longestSuffix_eq_zero_or f.text (b + (last + 1)) suffixes with h0 | ⟨m, hm, hmat, h0⟩
    · rw [h0]
      exact h.charAt_succ_eq (by omega) (hline _ (by omega) (by omega))
    · rw [h0]
      have hlm : 0 < m.length := List.length_pos_iff.mpr (hs m hm).1
      have hin : last + 1 < n := by
        refine Nat.lt_of_not_le fun hge => ?_
        rcases h.closes with ⟨hsize, -⟩ | hn
        · have := Text.le_size_of_hasAt hmat (hs m hm).1
          omega
        · exact hline last (by omega) (by omega) (by
            rw [show b + last = b + n - 1 by omega]
            exact hn (by omega))
      have hmle := (h.hasAt_of_hasAt (hs m hm) hin hmat).1
      have := h.charAt_succ_eq (j := last + m.length) (by omega)
        (Text.byteAt_ne_newline (hs m hm) hmat (by omega) (by omega))
      rw [show last + m.length + 1 = last + 1 + m.length by omega] at this
      exact this
  unfold extendedEnd
  rw [hbefore]
  split
  · exact .pure (.inl ⟨rfl, rfl⟩)
  · refine .bind (P := fun _ _ => True) (fun _ _ _ _ => trivial) fun _ _ _ => .pure ?_
    rw [Nat.add_assoc b, Nat.add_assoc b₀, hlast, ← hsuffix, Nat.add_assoc b, Nat.add_assoc b₀,
      hbehind]
    split
    · exact .inl ⟨rfl, rfl⟩
    · rw [← hlast, Nat.add_assoc j, ← Nat.add_assoc b, ← Nat.add_assoc b₀]
      exact .inr ⟨_, rfl, rfl⟩

/-- The scan for a mark takes the same step in both documents.

**Proof sketch.** Either no occurrence is left in the range of either scan, or both find the same
one. Then they ask the layouts, the scope and the end of the token, which all say the same. -/
lemma tokenStep_shifted (h : f.Twin f₀ l l₀ b b₀ n) (hc : f.dialect.looksAhead condition = true)
    {needle : Mark} (hn : needle.IsPlain) {tokenEnd tokenEnd₀ : TokenEnd}
    (hend : TokenEnd.Shifted f b b₀ n needle tokenEnd tokenEnd₀) (k : Nat) :
    Alike (f.tokenStep l condition needle tokenEnd (b + n) (b + k) ())
      (f₀.tokenStep l₀ condition needle tokenEnd₀ (b₀ + n) (b₀ + k) ())
      (Sweep.Move.Shifted b b₀) := by
  have hlen : 0 < needle.length := List.length_pos_iff.mpr hn.1
  unfold tokenStep
  refine .bind (P := fun _ _ => True) (fun _ _ _ _ => trivial) fun _ _ _ => ?_
  rcases h.shares.inside.find_cases needle k with
    ⟨h1, h2⟩ | ⟨j, hkj, hjn, h1, h2⟩
  · rw [h1, h2]
    exact .pure .stop
  · rw [h1, h2]
    have hat := (Text.find_bounds h1).2.2
    -- the scans go on behind the same character
    have hnext : ∃ next, f.text.nextBoundary (b + j) = b + next ∧
        f₀.text.nextBoundary (b₀ + j) = b₀ + next := by
      unfold Text.nextBoundary
      rw [h.shares.inside.charAt_eq (by omega)]
      cases f₀.text.charAt (b₀ + j) with
      | none => exact ⟨j + 1, rfl, rfl⟩
      | some c => exact ⟨j + c.utf8Size, Nat.add_assoc _ _ _, Nat.add_assoc _ _ _⟩
    obtain ⟨next, hnext, hnext₀⟩ := hnext
    dsimp only
    rw [hnext, hnext₀]
    refine .bind (hend j (by omega) hat) fun r r₀ hr => ?_
    rcases hr with ⟨rfl, rfl⟩ | ⟨len, rfl, rfl⟩
    · exact .pure (.nothing next)
    · dsimp only
      rw [h.inLiteral_eq j (by omega), Nat.add_assoc b, Nat.add_assoc b₀]
      split
      · exact .pure (.nothing next)
      · have hline : f.text.byteAt (b + j) ≠ some newline :=
          Text.byteAt_ne_newline hn hat (Nat.le_refl _) (by omega)
        refine .bind (h.accepts_alike hc (by omega) hline) fun a a₀ ha => ?_
        subst ha
        cases a with
        | true => exact .pure (.accepted (j, j + len) next)
        | false => exact .pure (.nothing next)

/-- The scan for names takes the same step in both documents.

**Proof sketch.** The signs are found alike. The character behind a sign is the same in both
documents, and so are the first character that ends the name and hence the end of the name, which is
the end of the range if no such character is left. -/
lemma variableStep_shifted (h : f.Twin f₀ l l₀ b b₀ n)
    (hc : f.dialect.looksAhead condition = true) {sign : Char} (hsign : sign ≠ '\n')
    (ends exceptions : List Char) (k : Nat) :
    Alike (f.variableStep l condition sign ends exceptions (b + n) (b + k) ())
      (f₀.variableStep l₀ condition sign ends exceptions (b₀ + n) (b₀ + k) ())
      (Sweep.Move.Shifted b b₀) := by
  have hsize := sign.utf8Size_pos
  unfold variableStep
  refine .bind (P := fun _ _ => True) (fun _ _ _ _ => trivial) fun _ _ _ => ?_
  rcases h.shares.inside.find_cases (mark sign.toString) k with ⟨h1, h2⟩ | ⟨j, hkj, hjn, h1, h2⟩
  · rw [h1, h2]
    exact .pure .stop
  · rw [h1, h2]
    have hat := (Text.find_bounds h1).2.2
    rw [length_mark_toString] at hjn
    rw [mark_toString, ← Text.charAt_eq_some_iff] at hat
    have hline (i : Nat) (hi1 : j ≤ i) (hi2 : i < j + sign.utf8Size) :
        f.text.byteAt (b + i) ≠ some newline :=
      Text.byteAt_ne_newline_of_charAt hat hsign (by omega) (by omega)
    -- the last byte of the sign, which is no newline
    obtain ⟨last, hlast⟩ : ∃ last, j + sign.utf8Size = last + 1 :=
      ⟨j + sign.utf8Size - 1, by omega⟩
    have hbehind := h.shares.inside.charAt_succ_eq (j := last) (by omega) (hline _ (by omega) (by omega))
    dsimp only
    rw [Nat.add_assoc b, Nat.add_assoc b₀, hlast, hbehind]
    cases f₀.text.charAt (b₀ + (last + 1)) with
    | none => exact .pure (.nothing (last + 1))
    | some next =>
      dsimp only
      split
      · exact .pure (.nothing (last + 1))
      · refine .bind (h.refusesVariable_alike hc (by omega) (hline j (Nat.le_refl _) (by omega)))
          fun refused refused₀ hr => ?_
        subst hr
        cases refused with
        | true => exact .pure (.nothing (last + 1))
        | false =>
          -- the name starts at the same place
          obtain ⟨start, hstart, hstart₀⟩ : ∃ start,
              (if next = '#' then b + (last + 1) + 1 else b + (last + 1)) = b + start ∧
                (if next = '#' then b₀ + (last + 1) + 1 else b₀ + (last + 1)) = b₀ + start := by
            split
            · exact ⟨last + 1 + 1, rfl, rfl⟩
            · exact ⟨last + 1, rfl, rfl⟩
          -- and it ends at the same place
          obtain ⟨stop, hstop, hstop₀⟩ : ∃ stop,
              (f.text.findChar (fun c => Unicode.isBlank c || ends.contains c) (b + start)
                (b + n)).getD (b + n) = b + stop ∧
              (f₀.text.findChar (fun c => Unicode.isBlank c || ends.contains c) (b₀ + start)
                (b₀ + n)).getD (b₀ + n) = b₀ + stop := by
            rcases h.shares.inside.findChar_cases (fun c => Unicode.isBlank c || ends.contains c) start with
              ⟨h3, h4⟩ | ⟨i, -, -, h3, h4⟩
            · rw [h3, h4]
              exact ⟨n, rfl, rfl⟩
            · rw [h3, h4]
              exact ⟨i, rfl, rfl⟩
          rw [hstart, hstart₀]
          refine .bind (P := fun _ _ => True) (fun _ _ _ _ => trivial) fun _ _ _ => ?_
          rw [hstop, hstop₀]
          by_cases hlt' : start < stop
          · rw [if_pos (show b + start < b + stop by omega),
              if_pos (show b₀ + start < b₀ + stop by omega)]
            exact .pure (.accepted (j, stop) stop)
          · rw [if_neg (show ¬ b + start < b + stop by omega),
              if_neg (show ¬ b₀ + start < b₀ + stop by omega)]
            exact .pure (.nothing (last + 1))

/-- The scan for single bytes takes the same step in both documents. -/
lemma markStep_shifted (h : f.Twin f₀ l l₀ b b₀ n) (bytes : List UInt8) (k : Nat) :
    Alike (f.markStep l bytes (b + n) (b + k) ()) (f₀.markStep l₀ bytes (b₀ + n) (b₀ + k) ())
      (Sweep.Move.Shifted b b₀) := by
  unfold markStep
  refine .bind (P := fun _ _ => True) (fun _ _ _ _ => trivial) fun _ _ _ => ?_
  rcases h.shares.inside.findByte_cases bytes.contains k with ⟨h1, h2⟩ | ⟨j, hkj, hjn, h1, h2⟩
  · rw [h1, h2]
    exact .pure .stop
  · rw [h1, h2]
    dsimp only
    rw [h.inLiteral_eq j (by omega)]
    split
    · exact .pure (.nothing (j + 1))
    · exact .pure (.accepted (j, j + 1) (j + 1))

end Frame

end LexPaint
