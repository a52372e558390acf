import LexPaint.Proofs.OutsideEdits
import LexPaint.Proofs.RequestSafety
import LexPaint.Proofs.ShiftedSets
import Mathlib.Data.List.Pairwise

set_option relaxedAutoImplicit false
set_option autoImplicit false

/-!
# What interval sets answer

A query looks at one interval of a set: the last one that starts early enough, found by bisection. And a
comparison of layouts looks at pieces, those before the edited section and those behind it in one list.
Neither would be right for arbitrary intervals. For intervals that are not empty and of which no two share
an offset, both are: a query finds every interval that there is to find, and a comparison that finds no
change has missed none.

## Main definitions

* `Interval.Family`: intervals that are not empty, of which no two share an offset.
* `kindAt`: the kind of the interval at an offset.

## Main results

* `IntervalSet.intervalAt_eq_some_iff`, `IntervalSet.inString_eq_some_iff`, `IntervalSet.overlaps_iff`:
  the queries.
* `IntervalSet.queries_of_addAll`: a set to which a family was added in any order.
* `IntervalSet.kindAt_of_layoutChange`: a comparison that finds no change.
-/

namespace LexPaint

/-! ### Families of intervals -/

namespace Interval

variable {a b : Interval} {ivs ivs' : List Interval} {pos : Nat}

/-- No offset lies in both intervals. -/
def Apart (a b : Interval) : Prop :=
  ∀ pos, a.contains pos = true → b.contains pos = false

/-- Two intervals share no offset if one of them ends before the other starts, or if one is empty.

**Proof sketch.** Otherwise the later one of the starts lies in both. -/
lemma apart_iff : a.Apart b ↔
    a.stop ≤ b.start ∨ b.stop ≤ a.start ∨ a.stop ≤ a.start ∨ b.stop ≤ b.start := by
  constructor
  · intro h
    by_contra hne
    have hfree := h (max a.start b.start) (contains_iff.mpr (by omega))
    rw [contains_iff.mpr (by omega)] at hfree
    cases hfree
  · intro h pos ha
    rw [contains_iff] at ha
    rw [Bool.eq_false_iff, ne_eq, contains_iff]
    omega

instance : Decidable (a.Apart b) :=
  decidable_of_iff _ apart_iff.symm

instance : Std.Symm Apart :=
  ⟨fun _ _ h => apart_iff.mpr (by have := apart_iff.mp h; omega)⟩

/-- None of the intervals is empty, and no two of them share an offset. -/
structure Family (ivs : List Interval) : Prop where
  nonempty : ∀ iv ∈ ivs, iv.start < iv.stop
  apart : ivs.Pairwise Apart

instance : Decidable (Family ivs) :=
  decidable_of_iff ((∀ iv ∈ ivs, iv.start < iv.stop) ∧ ivs.Pairwise Apart)
    ⟨fun ⟨h1, h2⟩ => ⟨h1, h2⟩, fun h => ⟨h.nonempty, h.apart⟩⟩

namespace Family

/-- The order of a family does not matter. -/
lemma perm (h : Family ivs) (hperm : ivs.Perm ivs') : Family ivs' :=
  ⟨fun iv hiv => h.nonempty iv (hperm.mem_iff.mpr hiv),
    (hperm.pairwise_iff fun hab => Std.Symm.symm _ _ hab).mp h.apart⟩

/-- Intervals of a family that share an offset are the same. -/
lemma eq_of_contains (h : Family ivs) (ha : a ∈ ivs) (hb : b ∈ ivs) (hap : a.contains pos = true)
    (hbp : b.contains pos = true) : a = b := by
  by_contra hne
  have hfree := h.apart.forall ha hb hne pos hap
  rw [hbp] at hfree
  cases hfree

/-- Intervals of a family that start together are the same. -/
lemma eq_of_start (h : Family ivs) (ha : a ∈ ivs) (hb : b ∈ ivs) (hstart : a.start = b.start) :
    a = b :=
  h.eq_of_contains ha hb (contains_iff.mpr ⟨Nat.le_refl _, h.nonempty a ha⟩)
    (contains_iff.mpr ⟨Nat.le_of_eq hstart.symm, hstart ▸ h.nonempty b hb⟩)

end Family

end Interval

/-! ### Queries -/

namespace IntervalSet

variable {s : IntervalSet} {iv : Interval} {pos start stop : Nat}

/-- In the order of their starts, the intervals of a family are in the order of their ends too. -/
lemma Sorted.nested (hs : s.Sorted) (h : Interval.Family s.intervals.toList) : s.Nested := by
  refine (hs.and h.apart).imp_of_mem fun {a b} ha hb hab => ⟨hab.1, ?_⟩
  have hapart := Interval.apart_iff.mp hab.2
  have hne := h.nonempty a ha
  have hne' := h.nonempty b hb
  omega

/-- The interval at an offset is the only one that contains it. -/
theorem intervalAt_eq_some_iff (hs : s.Sorted) (h : Interval.Family s.intervals.toList) :
    s.intervalAt pos = some iv ↔ iv ∈ s.intervals ∧ iv.contains pos = true :=
  (hs.nested h).intervalAt_eq_some_iff fun _ ha _ hb hap hbp =>
    h.eq_of_contains (Array.mem_toList_iff.mpr ha) (Array.mem_toList_iff.mpr hb) hap hbp

/-- The start that a query answers is that of the interval which contains the offset. -/
theorem inString_eq_some_iff (hs : s.Sorted) (h : Interval.Family s.intervals.toList) :
    s.inString pos = some start ↔
      ∃ iv ∈ s.intervals, iv.start = start ∧ iv.contains pos = true := by
  rw [inString, Option.map_eq_some_iff]
  constructor
  · rintro ⟨iv, hat, hstart⟩
    obtain ⟨hmem, hpos⟩ := (intervalAt_eq_some_iff hs h).mp hat
    exact ⟨iv, hmem, hstart, hpos⟩
  · rintro ⟨iv, hmem, hstart, hpos⟩
    exact ⟨iv, (intervalAt_eq_some_iff hs h).mpr ⟨hmem, hpos⟩, hstart⟩

/-- On a nested set the query for overlaps asks whether any interval starts before the range ends and ends
after it starts.

**Proof sketch.** The query looks at the last interval that starts before the range ends. Every other one
that does so ends no later. -/
lemma overlaps_iff_of_nested (h : s.Nested) : s.overlaps start stop = true ↔
    ∃ iv ∈ s.intervals, iv.start < stop ∧ start < iv.stop := by
  rw [overlaps, Option.any_eq_true]
  constructor
  · rintro ⟨iv, hlast, hlt⟩
    obtain ⟨hmem, hstart⟩ := mem_of_lastWhere hlast
    exact ⟨iv, hmem, of_decide_eq_true hstart, of_decide_eq_true hlt⟩
  · rintro ⟨x, hmem, hstart, hlt⟩
    have hsame : (fun iv : Interval => decide (iv.start < stop)) =
        fun iv => decide (iv.start ≤ stop - 1) := by
      funext iv
      exact decide_eq_decide.mpr (by omega)
    obtain ⟨iv, hlast, hstop⟩ := h.exists_lastWhere hmem (by omega : x.start ≤ stop - 1)
    exact ⟨iv, hsame ▸ hlast, decide_eq_true (Nat.lt_of_lt_of_le hlt hstop)⟩

/-- A range that is not empty overlaps an interval of a family if it shares an offset with it.

**Proof sketch.** The later one of the starts lies in both. -/
theorem overlaps_iff (hs : s.Sorted) (h : Interval.Family s.intervals.toList) (hlt : start < stop) :
    s.overlaps start stop = true ↔
      ∃ iv ∈ s.intervals, ∃ pos, iv.contains pos = true ∧ start ≤ pos ∧ pos < stop := by
  rw [overlaps_iff_of_nested (hs.nested h)]
  refine exists_congr fun iv => and_congr_right fun hmem => ?_
  have hne := h.nonempty iv (Array.mem_toList_iff.mpr hmem)
  simp only [Interval.contains_iff]
  constructor
  · rintro ⟨h1, h2⟩
    exact ⟨max iv.start start, ⟨by omega, by omega⟩, by omega, by omega⟩
  · rintro ⟨pos, hpos, h1, h2⟩
    exact ⟨by omega, by omega⟩

/-- After a reset, a set contains exactly the intervals that are added. -/
lemma toList_addAll_perm (s : IntervalSet) (ivs : Array Interval) :
    (s.reset.addAll ivs).intervals.toList.Perm ivs.toList := by
  have hperm := foldl_add_perm s.reset ivs.toList
  rw [Array.foldl_toList] at hperm
  exact hperm

/-- A set sorts the intervals that are added to it.

**Proof sketch.** Both lists are in the order of their starts and have the same intervals, and no two of
these start together. -/
lemma toList_addAll_eq_mergeSort (s : IntervalSet) {ivs : Array Interval}
    (h : Interval.Family ivs.toList) :
    (s.reset.addAll ivs).intervals.toList =
      ivs.toList.mergeSort fun a b => decide (a.start ≤ b.start) := by
  have hsort : (ivs.toList.mergeSort fun a b => decide (a.start ≤ b.start)).Pairwise
      fun a b => a.start ≤ b.start := by
    refine (List.pairwise_mergeSort (fun a b c hab hbc => ?_) (fun a b => ?_) ivs.toList).imp
      fun hab => of_decide_eq_true hab
    · simp only [decide_eq_true_eq] at hab hbc ⊢
      omega
    · simp only [Bool.or_eq_true, decide_eq_true_eq]
      omega
  have hperm := toList_addAll_perm s ivs
  have hsorted : (s.reset.addAll ivs).Sorted :=
    Sorted.addAll (s := s.reset) List.Pairwise.nil ivs
  refine List.Perm.eq_of_pairwise (fun a b ha hb hab hba => ?_) hsorted hsort
    (hperm.trans (List.mergeSort_perm _ _).symm)
  exact h.eq_of_start (hperm.mem_iff.mp ha) ((List.mergeSort_perm _ _).mem_iff.mp hb)
    (Nat.le_antisymm hab hba)

/-- **Queries are exact.** After a reset, intervals that are not empty and of which no two share an offset
are added one after the other, in any order. Then the set holds them in the order of their starts; the
interval found at an offset is the one among them that contains it, if there is one, and its start is the
answer to the query for a start; and a range that is not empty overlaps the set exactly if it shares an
offset with one of them.

**Proof sketch.** The set is sorted, and as no two intervals share an offset it is sorted by ends too. So
the interval that a query looks at is the one that reaches furthest. -/
theorem queries_of_addAll (s : IntervalSet) {ivs : Array Interval} (h : Interval.Family ivs.toList) :
    (s.reset.addAll ivs).intervals.toList =
        ivs.toList.mergeSort (fun a b => decide (a.start ≤ b.start)) ∧
      (∀ pos start, (s.reset.addAll ivs).inString pos = some start ↔
        ∃ iv ∈ ivs, iv.start = start ∧ iv.contains pos = true) ∧
      (∀ pos iv, (s.reset.addAll ivs).intervalAt pos = some iv ↔
        iv ∈ ivs ∧ iv.contains pos = true) ∧
      ∀ start stop, start < stop → ((s.reset.addAll ivs).overlaps start stop = true ↔
        ∃ iv ∈ ivs, ∃ pos, iv.contains pos = true ∧ start ≤ pos ∧ pos < stop) := by
  have hperm := toList_addAll_perm s ivs
  have hfamily := h.perm hperm.symm
  have hsorted : (s.reset.addAll ivs).Sorted :=
    Sorted.addAll (s := s.reset) List.Pairwise.nil ivs
  have hmem (iv : Interval) : iv ∈ (s.reset.addAll ivs).intervals ↔ iv ∈ ivs := by
    rw [← Array.mem_toList_iff, hperm.mem_iff, Array.mem_toList_iff]
  refine ⟨toList_addAll_eq_mergeSort s h, fun pos start => ?_, fun pos iv => ?_,
    fun start stop hlt => ?_⟩
  · rw [inString_eq_some_iff hsorted hfamily]
    simp only [hmem]
  · rw [intervalAt_eq_some_iff hsorted hfamily, hmem]
  · rw [overlaps_iff hsorted hfamily hlt]
    simp only [hmem]

/-- Three neighbours, of which the last one is added first. -/
theorem queries_of_addAll_neighbours :
    Interval.Family [⟨8, 12, .double⟩, ⟨2, 5, .single⟩, ⟨5, 8, .textBlock⟩] ∧
      (empty.reset.addAll #[⟨8, 12, .double⟩, ⟨2, 5, .single⟩, ⟨5, 8, .textBlock⟩]).intervalAt 5 =
        some ⟨5, 8, .textBlock⟩ ∧
      (empty.reset.addAll #[⟨8, 12, .double⟩, ⟨2, 5, .single⟩, ⟨5, 8, .textBlock⟩]).overlaps 0 2 =
        false := by
  have hfamily : Interval.Family
      (#[⟨8, 12, .double⟩, ⟨2, 5, .single⟩, ⟨5, 8, .textBlock⟩] : Array Interval).toList := by decide
  obtain ⟨-, -, hat, hoverlaps⟩ := queries_of_addAll empty hfamily
  refine ⟨hfamily, (hat 5 _).mpr ⟨by simp, rfl⟩, ?_⟩
  rw [Bool.eq_false_iff, ne_eq, hoverlaps 0 2 (by decide)]
  simp only [Interval.contains_iff]
  rintro ⟨iv, hiv, pos, hpos, -, hlt⟩
  simp only [List.mem_toArray, List.mem_cons, List.not_mem_nil, or_false] at hiv
  rcases hiv with rfl | rfl | rfl <;> dsimp only at hpos <;> omega

end IntervalSet

/-! ### Comparisons of layouts -/

/-- The kind of the interval that contains an offset, if there is one. -/
def kindAt (ivs : List Interval) (pos : Nat) : Option IntervalKind :=
  (ivs.find? fun iv => iv.contains pos).map Interval.kind

/-- In a family the kind at an offset is the one that covers it.

**Proof sketch.** The first interval found that contains the offset is the only one. -/
lemma kindAt_eq_some_iff {ivs : List Interval} (h : Interval.Family ivs) {pos : Nat}
    {kind : IntervalKind} : kindAt ivs pos = some kind ↔ covers ivs (· == kind) pos = true := by
  have hfound {iv : Interval} (hiv : ivs.find? (fun iv => iv.contains pos) = some iv) :
      iv ∈ ivs ∧ iv.contains pos = true :=
    ⟨List.mem_of_find?_eq_some hiv, (List.find?_eq_some_iff_append.mp hiv).1⟩
  rw [kindAt, Option.map_eq_some_iff, covers_iff]
  simp only [beq_iff_eq, ← Interval.contains_iff]
  constructor
  · rintro ⟨iv, hiv, hkind⟩
    exact ⟨iv, (hfound hiv).1, hkind, (hfound hiv).2⟩
  · rintro ⟨iv, hmem, hkind, hpos⟩
    have hsome : (ivs.find? fun iv => iv.contains pos).isSome = true :=
      List.find?_isSome.mpr ⟨iv, hmem, hpos⟩
    obtain ⟨first, hfirst⟩ := Option.isSome_iff_exists.mp hsome
    -- the first interval that contains the offset is the only one
    have hsame := h.eq_of_contains (hfound hfirst).1 hmem (hfound hfirst).2 hpos
    exact ⟨first, hfirst, hsame ▸ hkind⟩

/-- Families that are covered alike at two offsets have the same kind there. -/
lemma kindAt_eq_of_covers {ivs ivs' : List Interval} (h : Interval.Family ivs)
    (h' : Interval.Family ivs') {pos pos' : Nat}
    (hcovers : ∀ Q, covers ivs Q pos = covers ivs' Q pos') : kindAt ivs pos = kindAt ivs' pos' := by
  refine Option.ext fun kind => ?_
  rw [kindAt_eq_some_iff h, kindAt_eq_some_iff h', hcovers]

namespace IntervalSet

/-- **The comparison is sound.** The current intervals and those of the last committed pass are families,
and the section of the window does not end before it starts. Then the comparison has an answer. If it
finds no change, then at every offset before the section both lists have an interval of the same kind, or
both have none; and at every old offset behind the section the last pass had what there is now at the
offset to which the window sends it.

**Proof sketch.** The pieces before the section start before it, and the moved ones do not. So the two
sorts of pieces agree each for itself, and they cover what their intervals cover there. -/
theorem kindAt_of_layoutChange {s : IntervalSet} {w : EditWindow}
    (h : Interval.Family s.intervals.toList) (h₀ : Interval.Family s.retained.toList)
    (hw : w.start ≤ w.stop) :
    ∃ changed, s.layoutChange w = .ok changed ∧ (changed = false →
      (∀ p, p < w.start → kindAt s.intervals.toList p = kindAt s.retained.toList p) ∧
      ∀ q, w.oldStop ≤ q → ∃ q', w.shift q = .ok q' ∧
        kindAt s.retained.toList q = kindAt s.intervals.toList q') := by
  obtain ⟨changed, hchanged, -⟩ := s.layoutChange_ensures w
  refine ⟨changed, hchanged, ?_⟩
  rintro rfl
  have hkeeps := EditWindow.keeps_of_layoutChange hw hchanged
  refine ⟨fun p hp => kindAt_eq_of_covers h h₀ fun Q => hkeeps.covers_before hp, fun q hq => ?_⟩
  obtain ⟨k, rfl⟩ := Nat.exists_eq_add_of_le hq
  refine ⟨w.stop + k, ?_, kindAt_eq_of_covers h₀ h fun Q => hkeeps.covers_after.symm⟩
  rw [EditWindow.shift_of_le hq]
  congr 1
  omega

/-- A string that ends where the section starts, one that crosses its end, and one behind it that has
moved by a byte. -/
theorem kindAt_of_layoutChange_crossing :
    ∃ s : IntervalSet, s.intervals = #[⟨0, 6, .double⟩, ⟨9, 14, .single⟩, ⟨15, 17, .double⟩] ∧
      s.retained = #[⟨0, 6, .double⟩, ⟨7, 13, .single⟩, ⟨14, 16, .double⟩] ∧
      s.layoutChange ⟨6, 12, 11⟩ = .ok false ∧
      (∀ p, p < 6 → kindAt s.intervals.toList p = kindAt s.retained.toList p) ∧
      ∀ q, 11 ≤ q → ∃ q', EditWindow.shift ⟨6, 12, 11⟩ q = .ok q' ∧
        kindAt s.retained.toList q = kindAt s.intervals.toList q' := by
  refine ⟨⟨#[⟨0, 6, .double⟩, ⟨9, 14, .single⟩, ⟨15, 17, .double⟩], ⟨0, 0⟩,
    #[⟨0, 6, .double⟩, ⟨7, 13, .single⟩, ⟨14, 16, .double⟩], ⟨0, 0⟩⟩, rfl, rfl, ?_⟩
  have hrun : layoutChange ⟨#[⟨0, 6, .double⟩, ⟨9, 14, .single⟩, ⟨15, 17, .double⟩], ⟨0, 0⟩,
      #[⟨0, 6, .double⟩, ⟨7, 13, .single⟩, ⟨14, 16, .double⟩], ⟨0, 0⟩⟩ ⟨6, 12, 11⟩ = .ok false := by
    decide
  obtain ⟨changed, hchanged, hkinds⟩ := kindAt_of_layoutChange
    (s := ⟨#[⟨0, 6, .double⟩, ⟨9, 14, .single⟩, ⟨15, 17, .double⟩], ⟨0, 0⟩,
      #[⟨0, 6, .double⟩, ⟨7, 13, .single⟩, ⟨14, 16, .double⟩], ⟨0, 0⟩⟩)
    (w := ⟨6, 12, 11⟩) (by decide) (by decide) (by decide)
  obtain rfl : false = changed := Except.ok.inj (hrun.symm.trans hchanged)
  exact ⟨hrun, hkinds rfl⟩

end IntervalSet

end LexPaint
