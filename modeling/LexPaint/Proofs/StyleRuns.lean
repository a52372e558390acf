import LexPaint.Buffer
import Mathlib.Tactic.Common

set_option relaxedAutoImplicit false
set_option autoImplicit false

/-!
# Maximal runs of a style

The runs of a buffer are found in one sweep over its styles. Read as a set they are the maximal ranges of
one style: a range of bytes of that style that the style does not go beyond on either side. A byte lies
in one maximal range only, so a range that is known to be one is the run that any of its bytes lies in.

## Main definitions

* `Buffer.IsRun`: the maximal ranges of one style.

## Main results

* `Buffer.IsRun.eq_of_common`: maximal ranges that share a byte are the same.
* `Buffer.mem_runs_iff`: the runs of a buffer are its maximal ranges.
* `Buffer.isRun_iff_of_covers`: ranges that do not touch are the maximal ranges of what they cover.
-/

namespace LexPaint

namespace Buffer

variable {b : Buffer} {run other : StyleRun}

/-- A range of bytes that share a style, and that the style does not go beyond on either side. -/
structure IsRun (b : Buffer) (run : StyleRun) : Prop where
  nonempty : run.start < run.stop
  same : ∀ i, run.start ≤ i → i < run.stop → b.styles[i]? = some run.style
  before : ∀ i, i + 1 = run.start → b.styles[i]? ≠ some run.style
  behind : b.styles[run.stop]? ≠ some run.style

/-- A maximal range of a style that covers a byte of another one does not end before it. -/
lemma IsRun.stop_le (h : b.IsRun run) (h' : b.IsRun other) (hstyle : run.style = other.style)
    (hle : other.start ≤ run.stop) : other.stop ≤ run.stop := by
  refine Nat.le_of_not_lt fun hlt => h.behind ?_
  rw [hstyle]
  exact h'.same _ hle hlt

/-- A maximal range of a style that covers a byte of another one does not start later. -/
lemma IsRun.start_le (h : b.IsRun run) (h' : b.IsRun other) (hstyle : run.style = other.style)
    (hlt : run.start < other.stop) : run.start ≤ other.start := by
  refine Nat.le_of_not_lt fun hgt => ?_
  have hpred : run.start - 1 + 1 = run.start := by omega
  refine h.before _ hpred ?_
  rw [hstyle]
  exact h'.same _ (by omega) (by omega)

/-- Maximal ranges that share a byte are the same.

**Proof sketch.** Both have the style of the byte, and neither goes beyond the other. -/
theorem IsRun.eq_of_common (h : b.IsRun run) (h' : b.IsRun other) {i : Nat}
    (h1 : run.start ≤ i) (h2 : i < run.stop) (h3 : other.start ≤ i) (h4 : i < other.stop) :
    run = other := by
  have hstyle : run.style = other.style := by
    have := (h.same i h1 h2).symm.trans (h'.same i h3 h4)
    exact Option.some.inj this
  have hstart : run.start = other.start :=
    Nat.le_antisymm (h.start_le h' hstyle (by omega)) (h'.start_le h hstyle.symm (by omega))
  have hstop : run.stop = other.stop :=
    Nat.le_antisymm (h'.stop_le h hstyle.symm (by omega)) (h.stop_le h' hstyle (by omega))
  cases run
  cases other
  simp_all

/-- A maximal range ends in the buffer. -/
lemma IsRun.stop_le_size (h : b.IsRun run) : run.stop ≤ b.styles.size := by
  have hlast := h.same (run.stop - 1) (by have := h.nonempty; omega) (by have := h.nonempty; omega)
  have := (Array.getElem?_eq_some_iff.mp hlast).1
  omega

/-- The sweep over what is left of the styles, behind a range that may still grow, finds the maximal
ranges from the start of that range on.

**Proof sketch.** Induction on the styles that are left. One that is the same lets the range grow, and
another one ends it. A maximal range that starts in a range that has ended is that range. -/
lemma mem_runsFrom_iff {rest : List Style} {start stop : Nat} {style : Style}
    (hrest : b.styles.toList.drop stop = rest) (hlt : start < stop)
    (hsame : ∀ i, start ≤ i → i < stop → b.styles[i]? = some style)
    (hbefore : ∀ i, i + 1 = start → b.styles[i]? ≠ some style) :
    run ∈ runsFrom start stop style rest ↔ b.IsRun run ∧ start ≤ run.start := by
  induction rest generalizing start stop style with
  | nil =>
    -- the styles are used up, so the range ends with the buffer
    have hsize : b.styles.size ≤ stop := by simpa using List.drop_eq_nil_iff.mp hrest
    have hself : b.IsRun ⟨start, stop, style⟩ :=
      ⟨hlt, hsame, hbefore, by rw [Array.getElem?_eq_none hsize]; simp⟩
    rw [runsFrom, List.mem_singleton]
    constructor
    · rintro rfl
      exact ⟨hself, Nat.le_refl _⟩
    · rintro ⟨hrun, hstart⟩
      have hin : run.start < stop := Nat.lt_of_lt_of_le hrun.nonempty
        (Nat.le_trans hrun.stop_le_size hsize)
      exact hrun.eq_of_common hself (Nat.le_refl _) hrun.nonempty hstart hin
  | cons s rest ih =>
    have hnext : b.styles[stop]? = some s := by
      rw [← Array.getElem?_toList, ← List.head?_drop, hrest, List.head?_cons]
    have htail : b.styles.toList.drop (stop + 1) = rest := by
      rw [← List.tail_drop, hrest, List.tail_cons]
    rw [runsFrom]
    split
    · rename_i heq
      subst heq
      refine ih htail (Nat.lt_succ_of_lt hlt) (fun i h1 h2 => ?_) hbefore
      rcases Nat.lt_succ_iff_lt_or_eq.mp h2 with hi | rfl
      · exact hsame i h1 hi
      · exact hnext
    · rename_i hne
      have hself : b.IsRun ⟨start, stop, style⟩ :=
        ⟨hlt, hsame, hbefore, fun h => hne (Option.some.inj (hnext.symm.trans h))⟩
      have hbehind : run ∈ runsFrom stop (stop + 1) s rest ↔ b.IsRun run ∧ stop ≤ run.start := by
        refine ih htail (Nat.lt_succ_self _) (fun i h1 h2 => ?_) fun i hi h => ?_
        · obtain rfl : i = stop := by omega
          exact hnext
        · exact hne (Option.some.inj (h.symm.trans (hsame i (by omega) (by omega))))
      rw [List.mem_cons, hbehind]
      constructor
      · rintro (rfl | ⟨hrun, hstart⟩)
        · exact ⟨hself, Nat.le_refl _⟩
        · exact ⟨hrun, by omega⟩
      · rintro ⟨hrun, hstart⟩
        rcases Nat.lt_or_ge run.start stop with hin | hout
        · exact .inl (hrun.eq_of_common hself (Nat.le_refl _) hrun.nonempty hstart hin)
        · exact .inr ⟨hrun, hout⟩

/-- **The runs of a buffer are its maximal ranges of one style.**

**Proof sketch.** Behind the first byte the sweep has a range underway of which it has seen one byte. -/
theorem mem_runs_iff : run ∈ b.runs ↔ b.IsRun run := by
  unfold runs
  split
  · rename_i hnil
    refine iff_of_false List.not_mem_nil fun hrun => ?_
    have hsize : b.styles.size = 0 := by simpa using congrArg List.length hnil
    have := hrun.stop_le_size
    have := hrun.nonempty
    omega
  · rename_i s rest hcons
    have hfirst : b.styles[0]? = some s := by
      rw [← Array.getElem?_toList, hcons]
      rfl
    refine (mem_runsFrom_iff (by rw [hcons]; rfl) Nat.one_pos (fun i _ hi => ?_)
      (fun i hi => absurd hi (by omega))).trans ⟨And.left, fun h => ⟨h, Nat.zero_le _⟩⟩
    obtain rfl : i = 0 := by omega
    exact hfirst

/-- If a style shows where ranges of a kind lie, and on neither side of one of them, then its maximal
ranges are those.

**Proof sketch.** Such a range is maximal, and the one that covers a byte of a maximal range shares
it. -/
lemma isRun_iff_of_covers {style : Style} {W : Nat → Nat → Prop}
    (hcovers : ∀ i, b.styles[i]? = some style ↔ ∃ start stop, W start stop ∧ start ≤ i ∧ i < stop)
    (hedges : ∀ start stop, W start stop → start < stop ∧
      (∀ i, i + 1 = start → b.styles[i]? ≠ some style) ∧ b.styles[stop]? ≠ some style)
    {start stop : Nat} : b.IsRun ⟨start, stop, style⟩ ↔ W start stop := by
  have hrun {start stop : Nat} (hw : W start stop) : b.IsRun ⟨start, stop, style⟩ := by
    obtain ⟨hlt, hbefore, hbehind⟩ := hedges start stop hw
    exact ⟨hlt, fun i h1 h2 => (hcovers i).mpr ⟨start, stop, hw, h1, h2⟩, hbefore, hbehind⟩
  refine ⟨fun h => ?_, hrun⟩
  obtain ⟨start', stop', hw', h1, h2⟩ := (hcovers start).mp (h.same start (Nat.le_refl _) h.nonempty)
  have heq := h.eq_of_common (hrun hw') (Nat.le_refl _) h.nonempty h1 h2
  obtain ⟨rfl, rfl⟩ : start = start' ∧ stop = stop' := by simpa using heq
  exact hw'

end Buffer

end LexPaint
