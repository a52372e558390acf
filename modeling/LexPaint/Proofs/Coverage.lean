import LexPaint.Proofs.Tiles
import LexPaint.Style
import Mathlib.Data.List.Nodup

set_option relaxedAutoImplicit false
set_option autoImplicit false

/-!
# What intervals cover

Strings and comments never start inside others of their sort, so a containment query on them only
asks whether some interval contains the offset. Stated in that way, what a layout says about an
offset depends on the kinds of the intervals there and on nothing else.

## Main definitions

* `covers`, `IntervalSet.Covers`: whether intervals, of some kinds or of any, contain an offset.
* `Layout.Settled`: the literals of each sort lie side by side.
* `Layout.shade`: the style that literals give to an offset.

## Main results

* `Layout.Settled.coversSort_eq`, `Layout.Settled.inComment_eq`, `Layout.Settled.any_single`:
  queries in terms of coverage.
-/

namespace LexPaint

/-! ### Coverage -/

/-- Whether one of the intervals has a kind that satisfies `Q` and contains an offset. -/
def covers (ivs : List Interval) (Q : IntervalKind → Bool) (pos : Nat) : Bool :=
  ivs.any fun iv => Q iv.kind && iv.contains pos

section Covers

variable {ivs ivs' found : List Interval} {Q : IntervalKind → Bool} {pos : Nat}

/-- An offset is covered if one of the intervals of such a kind contains it. -/
lemma covers_iff :
    covers ivs Q pos = true ↔ ∃ iv ∈ ivs, Q iv.kind = true ∧ iv.start ≤ pos ∧ pos < iv.stop := by
  simp [covers, Interval.contains]

/-- More intervals cover what either part covers. -/
lemma covers_of_mem (h : ∀ iv, iv ∈ ivs' ↔ iv ∈ found ∨ iv ∈ ivs) :
    covers ivs' Q pos = (covers found Q pos || covers ivs Q pos) := by
  rw [Bool.eq_iff_iff, Bool.or_eq_true, covers_iff, covers_iff, covers_iff]
  constructor
  · rintro ⟨iv, hiv, hc⟩
    exact ((h iv).mp hiv).imp (fun hm => ⟨iv, hm, hc⟩) fun hm => ⟨iv, hm, hc⟩
  · rintro (⟨iv, hiv, hc⟩ | ⟨iv, hiv, hc⟩)
    · exact ⟨iv, (h iv).mpr (.inl hiv), hc⟩
    · exact ⟨iv, (h iv).mpr (.inr hiv), hc⟩

/-- Only the kinds that occur matter. -/
lemma covers_congr {Q' : IntervalKind → Bool} (h : ∀ iv ∈ ivs, Q iv.kind = Q' iv.kind) :
    covers ivs Q pos = covers ivs Q' pos := by
  rw [Bool.eq_iff_iff, covers_iff, covers_iff]
  constructor
  · rintro ⟨iv, hiv, hq, hpos⟩
    exact ⟨iv, hiv, (h iv hiv) ▸ hq, hpos⟩
  · rintro ⟨iv, hiv, hq, hpos⟩
    exact ⟨iv, hiv, (h iv hiv).symm ▸ hq, hpos⟩

/-- Intervals of other kinds cover nothing. -/
lemma covers_eq_false (h : ∀ iv ∈ ivs, Q iv.kind = false) : covers ivs Q pos = false := by
  rw [Bool.eq_false_iff]
  intro hc
  obtain ⟨iv, hiv, hq, -⟩ := covers_iff.mp hc
  rw [h iv hiv] at hq
  cases hq

end Covers

/-- Intervals side by side that share an offset are the same.

**Proof sketch.** Of two different ones, the one that is listed first ends before the other one
starts. -/
lemma Tiles.eq_of_contains {lo hi pos : Nat} {l : List Interval} (h : Tiles lo hi l)
    {a b : Interval} (ha : a ∈ l) (hb : b ∈ l) (hap : a.start ≤ pos ∧ pos < a.stop)
    (hbp : b.start ≤ pos ∧ pos < b.stop) : a = b := by
  obtain ⟨i, hi, rfl⟩ := List.mem_iff_getElem.mp ha
  obtain ⟨j, hj, rfl⟩ := List.mem_iff_getElem.mp hb
  rcases Nat.lt_trichotomy i j with hij | rfl | hij
  · have := List.pairwise_iff_getElem.mp h.2 i j hi hj hij
    omega
  · rfl
  · have := List.pairwise_iff_getElem.mp h.2 j i hj hi hij
    omega

/-- An offset in one of several intervals side by side is found there. -/
lemma Tiles.intervalAt_eq_some_iff {lo hi pos : Nat} {s : IntervalSet} {iv : Interval}
    (h : Tiles lo hi s.intervals.toList) :
    s.intervalAt pos = some iv ↔ iv ∈ s.intervals ∧ iv.contains pos = true :=
  IntervalSet.Nested.intervalAt_eq_some_iff h.nested fun _ ha _ hb hap hbp =>
    h.eq_of_contains (Array.mem_toList_iff.mpr ha) (Array.mem_toList_iff.mpr hb)
      (Interval.contains_iff.mp hap) (Interval.contains_iff.mp hbp)

namespace IntervalSet

variable {s : IntervalSet} {pos : Nat}

/-- Whether one of the intervals contains an offset. -/
def Covers (s : IntervalSet) (pos : Nat) : Prop :=
  ∃ iv ∈ s.intervals, iv.start ≤ pos ∧ pos < iv.stop

/-- Covering an offset, as a proposition and as a test. -/
lemma covers_toList_iff : covers s.intervals.toList (fun _ => true) pos = true ↔ s.Covers pos := by
  simp [covers_iff, Covers]

instance : Decidable (s.Covers pos) :=
  decidable_of_iff _ covers_toList_iff

/-- A containment query on nested intervals has an answer if and only if the offset is covered. -/
lemma isSome_inString_iff (h : s.Nested) : (s.inString pos).isSome = true ↔ s.Covers pos := by
  rw [isSome_inString, isSome_intervalAt_iff h]
  simp [Covers, Interval.contains]

/-- A containment query asks whether any interval contains the offset. -/
lemma isSome_inString_eq (h : s.Nested) :
    (s.inString pos).isSome = covers s.intervals.toList (fun _ => true) pos := by
  rw [Bool.eq_iff_iff, isSome_inString_iff h, covers_toList_iff]

end IntervalSet

/-! ### Layouts -/

/-- The set that keeps intervals of a kind, named by the reason that a change of it gives. -/
def IntervalKind.sort : IntervalKind → RepairReason
  | double | single | textBlock => .quotes
  | lineComment => .lineComments
  | blockComment => .blockComments
  | heredocTag | heredoc => .heredocs
  | quoteOperator => .quoteOperators
  | tag => .tags
  | attributeValue => .attributeValues
  | embedded _ => .embeddedSections

namespace Layout

/-- Whether something of a kind that satisfies `Q` was mapped at an offset. -/
def covers (l : Layout) (Q : IntervalKind → Bool) (pos : Nat) : Bool :=
  LexPaint.covers l.allIntervals Q pos

/-- Whether something of a sort was mapped at an offset. -/
def coversSort (l : Layout) (sort : RepairReason) (pos : Nat) : Bool :=
  l.covers (fun kind => kind.sort == sort) pos

/-- The style that literals give to an offset: comments hide strings. -/
def shade (l : Layout) (pos : Nat) : Style :=
  if l.coversSort .lineComments pos || l.coversSort .blockComments pos then .comment
  else if l.coversSort .quotes pos || l.coversSort .heredocs pos ||
    l.coversSort .quoteOperators pos then .string
  else .plain

/-- Every set keeps intervals of its own sort. The literals of each sort lie side by side in a range,
except that block comments may end together. -/
structure Settled (lo hi : Nat) (l : Layout) : Prop where
  sorts : ∀ entry ∈ l.sets, ∀ iv ∈ entry.2.intervals, iv.kind.sort = entry.1
  quotes : Tiles lo hi l.quotes.intervals.toList
  lineComments : Tiles lo hi l.lineComments.intervals.toList
  blockComments : l.blockComments.Nested
  heredocs : Tiles lo hi l.composite.heredocs.intervals.toList
  operators : Tiles lo hi l.composite.operators.intervals.toList

variable {l : Layout} {lo hi pos : Nat} {Q : IntervalKind → Bool}

/-- The intervals of a layout are those of its sets. -/
lemma mem_allIntervals {iv : Interval} : iv ∈ l.allIntervals ↔
    iv ∈ l.quotes.intervals ∨ iv ∈ l.lineComments.intervals ∨ iv ∈ l.blockComments.intervals ∨
      iv ∈ l.composite.heredocs.intervals ∨ iv ∈ l.composite.operators.intervals ∨
      iv ∈ l.tags.intervals ∨ iv ∈ l.attributeValues.intervals ∨ iv ∈ l.embedded.intervals := by
  simp [allIntervals, sets]

/-- What holds of every set of a layout, set by set. -/
lemma forall_sets {P : RepairReason → IntervalSet → Prop} :
    (∀ entry ∈ l.sets, P entry.1 entry.2) ↔ P .quotes l.quotes ∧ P .lineComments l.lineComments ∧
      P .blockComments l.blockComments ∧ P .heredocs l.composite.heredocs ∧
      P .quoteOperators l.composite.operators ∧ P .tags l.tags ∧
      P .attributeValues l.attributeValues ∧ P .embeddedSections l.embedded := by
  simp [sets]

namespace Settled

/-- What was mapped of a sort is in the set of that sort.

**Proof sketch.** An interval of the sort is in a set of that sort, and there is one set of each
sort. -/
lemma covers_sort (h : l.Settled lo hi) {sort : RepairReason} {set : IntervalSet}
    (hmem : (sort, set) ∈ l.sets) (hQ : ∀ kind : IntervalKind, Q kind = true → kind.sort = sort) :
    l.covers Q pos = LexPaint.covers set.intervals.toList Q pos := by
  have hnodup : (l.sets.map Prod.fst).Nodup := by
    simp [sets]
  rw [covers, Bool.eq_iff_iff, covers_iff, covers_iff]
  constructor
  · rintro ⟨iv, hiv, hq, hpos⟩
    obtain ⟨entry, hentry, hiv⟩ := List.mem_flatMap.mp hiv
    have hsort := h.sorts entry hentry iv (by simpa using hiv)
    have hsame : entry = (sort, set) :=
      List.inj_on_of_nodup_map hnodup hentry hmem (hsort.symm.trans (hQ _ hq))
    subst hsame
    exact ⟨iv, hiv, hq, hpos⟩
  · rintro ⟨iv, hiv, hc⟩
    exact ⟨iv, List.mem_flatMap.mpr ⟨_, hmem, hiv⟩, hc⟩

/-- What was mapped of a sort is what a containment query on its set answers. -/
lemma coversSort_eq (h : l.Settled lo hi) {sort : RepairReason} {set : IntervalSet}
    (hmem : (sort, set) ∈ l.sets) (hset : set.Nested) :
    l.coversSort sort pos = (set.inString pos).isSome := by
  rw [coversSort, h.covers_sort hmem (by simp), IntervalSet.isSome_inString_eq hset]
  refine covers_congr fun iv hiv => ?_
  simp [h.sorts _ hmem iv (by simpa using hiv)]

/-- An offset is in a comment if it is in a line comment or in a block comment. -/
lemma inComment_eq (h : l.Settled lo hi) :
    l.inComment pos = (l.coversSort .lineComments pos || l.coversSort .blockComments pos) := by
  have hlines : (RepairReason.lineComments, l.lineComments) ∈ l.sets := by simp [sets]
  have hblocks : (RepairReason.blockComments, l.blockComments) ∈ l.sets := by simp [sets]
  rw [inComment, h.coversSort_eq hlines h.lineComments.nested,
    h.coversSort_eq hblocks h.blockComments]

/-- The query for a string at an offset knows its kind. Strings lie side by side, so the query cannot
find another string than the one that covers the offset. -/
lemma any_single (h : l.Settled lo hi) :
    (l.quotes.intervalAt pos).any (fun iv => iv.kind = .single) =
      l.covers (fun kind => kind == .single) pos := by
  have hquotes : (RepairReason.quotes, l.quotes) ∈ l.sets := by simp [sets]
  rw [h.covers_sort hquotes (fun kind hk => by rw [beq_iff_eq.mp hk]; rfl), Bool.eq_iff_iff,
    covers_iff]
  constructor
  · intro hany
    obtain ⟨iv, hiv, hk⟩ := (Option.any_eq_true _ _).mp hany
    obtain ⟨hmem, hpos⟩ := h.quotes.intervalAt_eq_some_iff.mp hiv
    exact ⟨iv, by simpa using hmem, by simpa using hk, Interval.contains_iff.mp hpos⟩
  · rintro ⟨iv, hiv, hk, hpos⟩
    have hfound : l.quotes.intervalAt pos = some iv := h.quotes.intervalAt_eq_some_iff.mpr
      ⟨by simpa using hiv, Interval.contains_iff.mpr hpos⟩
    simpa [hfound] using hk

end Settled

end Layout

end LexPaint
