import LexPaint.Proofs.Coverage
import LexPaint.Proofs.Ensures

set_option relaxedAutoImplicit false
set_option autoImplicit false

/-!
# What lies outside an edit

The comparison of layouts looks at the pieces of intervals before the edited section and behind it.
If nothing changed there, the same offsets are covered by intervals of the same kinds before and
after the edit, up to the shift.

## Main definitions

* `piecesBefore`, `piecesAfter`: the pieces before an offset, and those from an offset on.
* `EditWindow.Keeps`: two lists of intervals with the same pieces outside an edit.
* `SamePieces`: two lists of intervals with the same pieces in a range.

## Main results

* `EditWindow.keeps_of_layoutChange`: a comparison that finds no change.
* `EditWindow.Keeps.pieces_before`, `EditWindow.Keeps.pieces_after`: the ranges outside the edit.
* `EditWindow.Keeps.covers_before`, `EditWindow.Keeps.covers_after`: coverage outside the edit.
* `forall₂_of_piecesAfter`: entries that reach beyond an edit, where no length has changed.
-/

namespace LexPaint

/-- The pieces of intervals before an offset. -/
def piecesBefore (stop : Nat) (ivs : List Interval) : List Interval :=
  (ivs.filter fun iv => iv.start < stop).map fun iv => ⟨iv.start, min iv.stop stop, iv.kind⟩

/-- The pieces of intervals from an offset on, counted from there. -/
def piecesAfter (start : Nat) (ivs : List Interval) : List Interval :=
  (ivs.filter fun iv => start < iv.stop).map fun iv =>
    ⟨max iv.start start - start, iv.stop - start, iv.kind⟩

section Pieces

variable {stop start newStart : Nat} {move : Nat → Checked Nat} {ivs pieces : List Interval}

/-- The pieces that are compared are those before the section, and those behind it moved.

**Proof sketch.** Pieces before the section start before it, and moved pieces do not. -/
lemma outsidePieces_eq_ok (hmove : ∀ pos, start ≤ pos → move pos = .ok (pos - start + newStart))
    (hle : stop ≤ newStart) (h : outsidePieces stop start move ivs = .ok pieces) :
    pieces.filter (fun iv => iv.start < stop) = piecesBefore stop ivs ∧
      (pieces.filter (fun iv => !decide (iv.start < stop))).map
        (fun iv => (⟨iv.start - newStart, iv.stop - newStart, iv.kind⟩ : Interval)) =
          piecesAfter start ivs := by
  induction ivs generalizing pieces with
  | nil =>
    cases h
    exact ⟨rfl, rfl⟩
  | cons iv rest ih =>
    obtain ⟨after, hafter, h⟩ := bind_eq_ok.mp h
    obtain ⟨others, hothers, h⟩ := bind_eq_ok.mp h
    cases h
    obtain ⟨hbefore', hafter'⟩ := ih hothers
    have hpiece : after = if start < iv.stop then
        [⟨max iv.start start - start + newStart, iv.stop - start + newStart, iv.kind⟩] else [] := by
      unfold pieceAfter at hafter
      split at hafter
      · rename_i hlt
        rw [hmove _ (Nat.le_max_right _ _), hmove _ (Nat.le_of_lt hlt)] at hafter
        cases hafter
        rw [if_pos hlt]
      · rename_i hge
        cases hafter
        rw [if_neg hge]
    -- a piece that is moved does not come to lie in front of the section
    have hmoved : ¬ max iv.start start - start + newStart < stop := by omega
    rw [List.filter_append, List.filter_append, List.filter_append, List.filter_append,
      List.map_append, List.map_append, hbefore', hafter', hpiece]
    unfold piecesBefore piecesAfter pieceBefore
    rw [List.filter_cons, List.filter_cons]
    constructor
    · by_cases h1 : iv.start < stop <;> by_cases h2 : start < iv.stop <;> simp [h1, h2, hmoved]
    · by_cases h1 : iv.start < stop <;> by_cases h2 : start < iv.stop <;> simp [h1, h2, hmoved]

end Pieces

namespace EditWindow

variable {w : EditWindow} {ivs ivs₀ : List Interval}

/-- Two lists of intervals, after and before an edit, have the same pieces outside of it. -/
structure Keeps (w : EditWindow) (ivs ivs₀ : List Interval) : Prop where
  before : piecesBefore w.start ivs = piecesBefore w.start ivs₀
  after : piecesAfter w.stop ivs = piecesAfter w.oldStop ivs₀

/-- A comparison that finds no change has seen the same pieces.

**Proof sketch.** The pieces that are compared are those before the section in their places, and
those behind it moved, so equal lists have equal halves. -/
theorem keeps_of_layoutChange {s : IntervalSet} (hw : w.start ≤ w.stop)
    (h : s.layoutChange w = .ok false) : w.Keeps s.intervals.toList s.retained.toList := by
  obtain ⟨current, hcurrent, h⟩ := bind_eq_ok.mp h
  obtain ⟨previous, hprevious, h⟩ := bind_eq_ok.mp h
  have hsame : current = previous := by
    have := Except.ok.inj h
    simpa using this
  subst hsame
  obtain ⟨h1, h2⟩ := outsidePieces_eq_ok (fun pos hpos => by
    show Except.ok pos = Except.ok (pos - w.stop + w.stop)
    rw [Nat.sub_add_cancel hpos]) hw hcurrent
  obtain ⟨h3, h4⟩ := outsidePieces_eq_ok (fun pos hpos => shift_of_le hpos) hw hprevious
  exact ⟨h1.symm.trans h3, h2.symm.trans h4⟩

/-- The window that relates the document after the edit to the one before it. -/
def flip (w : EditWindow) : EditWindow :=
  ⟨w.start, w.oldStop, w.stop⟩

namespace Keeps

/-- Two lists have the same pieces outside an edit whichever comes first. -/
lemma flip (h : w.Keeps ivs ivs₀) : w.flip.Keeps ivs₀ ivs :=
  ⟨h.before.symm, h.after.symm⟩

end Keeps

end EditWindow

/-! ### Pieces in a range -/

/-- An interval and another one have the same piece in a range that starts at `b` for the first one and
at `b₀` for the second one. -/
structure Interval.SamePiece (iv iv₀ : Interval) (b b₀ n : Nat) : Prop where
  kind_eq : iv₀.kind = iv.kind
  start_eq : max iv.start b + b₀ = max iv₀.start b₀ + b
  stop_eq : min iv.stop (b + n) + b₀ = min iv₀.stop (b₀ + n) + b

/-- Intervals with the same piece contain the same offsets of the range. -/
lemma Interval.SamePiece.contains_iff {iv iv₀ : Interval} {b b₀ n k : Nat}
    (h : iv.SamePiece iv₀ b b₀ n) (hk : k < n) :
    (iv.start ≤ b + k ∧ b + k < iv.stop) ↔ (iv₀.start ≤ b₀ + k ∧ b₀ + k < iv₀.stop) := by
  have hstart := h.start_eq
  have hstop := h.stop_eq
  omega

/-- Every interval of one list that reaches into a range has the same piece there as one of the other
list, and the other way round. -/
structure SamePieces (ivs ivs₀ : List Interval) (b b₀ n : Nat) : Prop where
  forth : ∀ iv ∈ ivs, ∀ k, k < n → iv.start ≤ b + k → b + k < iv.stop →
    ∃ iv₀ ∈ ivs₀, iv.SamePiece iv₀ b b₀ n
  back : ∀ iv₀ ∈ ivs₀, ∀ k, k < n → iv₀.start ≤ b₀ + k → b₀ + k < iv₀.stop →
    ∃ iv ∈ ivs, iv₀.SamePiece iv b₀ b n

namespace SamePieces

variable {ivs ivs₀ : List Interval} {b b₀ n k : Nat} {Q : IntervalKind → Bool}

/-- Two lists have the same pieces in a range whichever comes first. -/
lemma symm (h : SamePieces ivs ivs₀ b b₀ n) : SamePieces ivs₀ ivs b₀ b n :=
  ⟨h.back, h.forth⟩

/-- What the intervals of one list cover, those of the other cover as well. -/
lemma covers_of_covers (h : SamePieces ivs ivs₀ b b₀ n) (hk : k < n)
    (hc : covers ivs Q (b + k) = true) : covers ivs₀ Q (b₀ + k) = true := by
  obtain ⟨iv, hiv, hq, hpos⟩ := covers_iff.mp hc
  obtain ⟨iv₀, hiv₀, hsame⟩ := h.forth iv hiv k hk hpos.1 hpos.2
  exact covers_iff.mpr ⟨iv₀, hiv₀, hsame.kind_eq ▸ hq, (hsame.contains_iff hk).mp hpos⟩

/-- The same offsets of the range are covered. -/
lemma covers_eq (h : SamePieces ivs ivs₀ b b₀ n) (hk : k < n) :
    covers ivs Q (b + k) = covers ivs₀ Q (b₀ + k) :=
  Bool.eq_iff_iff.mpr ⟨h.covers_of_covers hk, h.symm.covers_of_covers hk⟩

/-- Two sets with the same pieces in a range cover the same offsets of it. -/
lemma covers_iff {set set₀ : IntervalSet}
    (h : SamePieces set.intervals.toList set₀.intervals.toList b b₀ n) (hk : k < n) :
    set.Covers (b + k) ↔ set₀.Covers (b₀ + k) := by
  rw [← IntervalSet.covers_toList_iff, ← IntervalSet.covers_toList_iff, h.covers_eq hk]

end SamePieces

namespace EditWindow.Keeps

variable {w : EditWindow} {ivs ivs₀ : List Interval} {Q : IntervalKind → Bool} {i k : Nat}

/-- An interval that reaches in front of the section has a counterpart with the same piece there. -/
lemma exists_piece_before (h : w.Keeps ivs ivs₀) {iv : Interval} (hiv : iv ∈ ivs) {k : Nat}
    (hk : k < w.start) (hstart : iv.start ≤ 0 + k) :
    ∃ iv₀ ∈ ivs₀, iv.SamePiece iv₀ 0 0 w.start := by
  have hmem : (⟨iv.start, min iv.stop w.start, iv.kind⟩ : Interval) ∈ piecesBefore w.start ivs :=
    List.mem_map.mpr ⟨iv, List.mem_filter.mpr ⟨hiv, by simp; omega⟩, rfl⟩
  rw [h.before] at hmem
  obtain ⟨iv₀, hiv₀, heq⟩ := List.mem_map.mp hmem
  simp only [Interval.mk.injEq] at heq
  exact ⟨iv₀, (List.mem_filter.mp hiv₀).1, heq.2.2, by omega, by omega⟩

/-- An interval that reaches behind the section has a counterpart with the same piece there. -/
lemma exists_piece_after (h : w.Keeps ivs ivs₀) {iv : Interval} (hiv : iv ∈ ivs) {k : Nat}
    (hstop : w.stop + k < iv.stop) (n : Nat) :
    ∃ iv₀ ∈ ivs₀, iv.SamePiece iv₀ w.stop w.oldStop n := by
  have hmem : (⟨max iv.start w.stop - w.stop, iv.stop - w.stop, iv.kind⟩ : Interval) ∈
      piecesAfter w.stop ivs :=
    List.mem_map.mpr ⟨iv, List.mem_filter.mpr ⟨hiv, by simp; omega⟩, rfl⟩
  rw [h.after] at hmem
  obtain ⟨iv₀, hiv₀, heq⟩ := List.mem_map.mp hmem
  obtain ⟨hmem₀, hlt⟩ := List.mem_filter.mp hiv₀
  simp only [Interval.mk.injEq] at heq
  simp only [decide_eq_true_eq] at hlt
  exact ⟨iv₀, hmem₀, heq.2.2, by omega, by omega⟩

/-- The pieces before the section are the same. -/
theorem pieces_before (h : w.Keeps ivs ivs₀) : SamePieces ivs ivs₀ 0 0 w.start :=
  ⟨fun _ hiv _ hk hstart _ => h.exists_piece_before hiv hk hstart,
    fun _ hiv₀ _ hk hstart _ => h.flip.exists_piece_before hiv₀ hk hstart⟩

/-- The pieces behind the section are the same. -/
theorem pieces_after (h : w.Keeps ivs ivs₀) (n : Nat) : SamePieces ivs ivs₀ w.stop w.oldStop n :=
  ⟨fun _ hiv _ _ _ hstop => h.exists_piece_after hiv hstop n,
    fun _ hiv₀ _ _ _ hstop => h.flip.exists_piece_after hiv₀ hstop n⟩

/-- The same offsets are covered before the section. -/
lemma covers_before (h : w.Keeps ivs ivs₀) (hi : i < w.start) :
    covers ivs Q i = covers ivs₀ Q i := by
  have := h.pieces_before.covers_eq (Q := Q) hi
  rwa [Nat.zero_add] at this

/-- The same offsets are covered behind the section. -/
lemma covers_after (h : w.Keeps ivs ivs₀) :
    covers ivs Q (w.stop + k) = covers ivs₀ Q (w.oldStop + k) :=
  (h.pieces_after (k + 1)).covers_eq (Nat.lt_succ_self k)

/-- An interval that reaches an offset before the section does so before and after the edit, and it
starts at the same place. -/
lemma exists_before (h : w.Keeps ivs ivs₀) {iv : Interval} (hiv : iv ∈ ivs) (hlt : i < w.start)
    (hpos : iv.start ≤ i ∧ i < iv.stop) :
    ∃ iv₀ ∈ ivs₀, iv₀.kind = iv.kind ∧ iv₀.start = iv.start ∧ i < iv₀.stop := by
  obtain ⟨iv₀, hiv₀, hkind, hstart, hstop⟩ := h.exists_piece_before hiv hlt (by omega)
  exact ⟨iv₀, hiv₀, hkind, by omega, by omega⟩

end EditWindow.Keeps

/-! ### Intervals side by side -/

/-- Two lists of intervals side by side have the same pieces from an offset on, and entry by entry the
same lengths. Then the entries that reach beyond the offset are entries at the same places, and they
start and end at the same distance from it.

**Proof sketch.** Once an entry reaches beyond the offset, all later ones do. So in both lists the
entries that do not come first, and there are as many of them. -/
theorem forall₂_of_piecesAfter {ivs ivs₀ : List Interval} {start start₀ : Nat}
    (hle : ivs.Pairwise fun a b => a.stop ≤ b.stop) (hle₀ : ivs₀.Pairwise fun a b => a.stop ≤ b.stop)
    (hord : ∀ iv ∈ ivs, iv.start ≤ iv.stop) (hord₀ : ∀ iv ∈ ivs₀, iv.start ≤ iv.stop)
    (hlen : ivs.map (fun iv => iv.stop - iv.start) = ivs₀.map fun iv => iv.stop - iv.start)
    (h : piecesAfter start ivs = piecesAfter start₀ ivs₀) :
    List.Forall₂ (fun iv iv₀ => (start < iv.stop ↔ start₀ < iv₀.stop) ∧ (start < iv.stop →
      iv₀.kind = iv.kind ∧ iv.start + start₀ = iv₀.start + start ∧
        iv.stop + start₀ = iv₀.stop + start)) ivs ivs₀ := by
  -- an entry beyond the offset leaves a piece, and so do all later ones
  have hcount {start : Nat} {iv : Interval} {rest : List Interval} (hlt : start < iv.stop)
      (hall : ∀ b ∈ rest, iv.stop ≤ b.stop) :
      piecesAfter start (iv :: rest) =
        (iv :: rest).map fun iv => ⟨max iv.start start - start, iv.stop - start, iv.kind⟩ := by
    unfold piecesAfter
    rw [List.filter_eq_self.mpr fun b hb => ?_]
    rcases List.mem_cons.mp hb with rfl | hb
    · simpa using hlt
    · have := hall b hb
      simp only [decide_eq_true_eq]
      omega
  -- an entry in front of it leaves none
  have hskip {start : Nat} {iv : Interval} {rest : List Interval} (hge : ¬ start < iv.stop) :
      piecesAfter start (iv :: rest) = piecesAfter start rest := by
    unfold piecesAfter
    rw [List.filter_cons_of_neg (by simpa using hge)]
  have hbound (start : Nat) (rest : List Interval) :
      (piecesAfter start rest).length ≤ rest.length := by
    unfold piecesAfter
    rw [List.length_map]
    exact List.length_filter_le _ _
  induction ivs generalizing ivs₀ with
  | nil =>
    cases ivs₀ with
    | nil => exact .nil
    | cons iv₀ rest₀ => cases hlen
  | cons iv rest ih =>
    cases ivs₀ with
    | nil => cases hlen
    | cons iv₀ rest₀ =>
      simp only [List.map_cons, List.cons.injEq] at hlen
      have hsame : rest.length = rest₀.length := by simpa using congrArg List.length hlen.2
      obtain ⟨hall, hle⟩ := List.pairwise_cons.mp hle
      obtain ⟨hall₀, hle₀⟩ := List.pairwise_cons.mp hle₀
      have hiv := hord iv (List.mem_cons_self ..)
      have hiv₀ := hord₀ iv₀ (List.mem_cons_self ..)
      have hrest : ∀ a ∈ rest, a.start ≤ a.stop := fun a ha => hord a (List.mem_cons_of_mem _ ha)
      have hrest₀ : ∀ a ∈ rest₀, a.start ≤ a.stop := fun a ha => hord₀ a (List.mem_cons_of_mem _ ha)
      have hlength := congrArg List.length h
      by_cases hlt : start < iv.stop
      · by_cases hlt₀ : start₀ < iv₀.stop
        · rw [hcount hlt hall, hcount hlt₀ hall₀] at h
          simp only [List.map_cons, List.cons.injEq, Interval.mk.injEq] at h
          refine .cons ⟨iff_of_true hlt hlt₀, fun _ => ⟨h.1.2.2.symm, by omega, by omega⟩⟩
            (ih hle hle₀ hrest hrest₀ hlen.2 ?_)
          unfold piecesAfter
          rw [List.filter_eq_self.mpr fun b hb => ?_, List.filter_eq_self.mpr fun b hb => ?_]
          · exact h.2
          · have := hall₀ b hb
            simp only [decide_eq_true_eq]
            omega
          · have := hall b hb
            simp only [decide_eq_true_eq]
            omega
        · -- one list would have more pieces than the other one has entries
          rw [hcount hlt hall, hskip hlt₀, List.length_map, List.length_cons] at hlength
          have := hbound start₀ rest₀
          omega
      · by_cases hlt₀ : start₀ < iv₀.stop
        · rw [hcount hlt₀ hall₀, hskip hlt, List.length_map, List.length_cons] at hlength
          have := hbound start rest
          omega
        · rw [hskip hlt, hskip hlt₀] at h
          exact .cons ⟨iff_of_false hlt hlt₀, fun hlt' => absurd hlt' hlt⟩
            (ih hle hle₀ hrest hrest₀ hlen.2 h)

end LexPaint
