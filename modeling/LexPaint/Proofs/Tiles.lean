import LexPaint.Proofs.Ensures
import LexPaint.Proofs.SortedSets

set_option relaxedAutoImplicit false
set_option autoImplicit false

/-!
# Intervals side by side

A sweep goes on behind what it has accepted. So the intervals that it maps lie side by side, in the
range that it sweeps. Sets that such intervals are added to stay in order and in range.

## Main definitions

* `Tiles`: intervals in a range, one behind the other.
* `Sweep.Move.Tiles`: a step that maps intervals between its offset and the next one.
* `IntervalSet.Fits`: a sorted set of intervals in a range.

## Main results

* `Sweep.collect_tiles`: the intervals that a sweep maps.
* `IntervalSet.Fits.addAll`: adding such intervals to a set.
-/

namespace LexPaint

variable {α σ : Type} {lo hi : Nat}

/-- The intervals lie in a range, and each one starts where an earlier one has ended or later. -/
def Tiles (lo hi : Nat) (l : List Interval) : Prop :=
  (∀ iv ∈ l, lo ≤ iv.start ∧ iv.start ≤ iv.stop ∧ iv.stop ≤ hi) ∧
    l.Pairwise fun a b => a.stop ≤ b.start

namespace Tiles

variable {l l' : List Interval}

/-- No intervals lie side by side in any range. -/
lemma nil : Tiles lo hi [] :=
  ⟨by simp, List.Pairwise.nil⟩

/-- A single interval lies in a range that goes around it. -/
lemma singleton {iv : Interval} (h1 : lo ≤ iv.start) (h2 : iv.start ≤ iv.stop)
    (h3 : iv.stop ≤ hi) : Tiles lo hi [iv] := by
  refine ⟨fun x hx => ?_, List.pairwise_singleton _ _⟩
  obtain rfl := List.mem_singleton.mp hx
  exact ⟨h1, h2, h3⟩

/-- What lies in a range lies in a longer one. -/
lemma mono {lo' hi' : Nat} (h : Tiles lo hi l) (hlo : lo' ≤ lo) (hhi : hi ≤ hi') :
    Tiles lo' hi' l := by
  refine ⟨fun iv hiv => ?_, h.2⟩
  have := h.1 iv hiv
  omega

/-- Intervals that start later lie in a shorter range. -/
lemma raise {lo' : Nat} (h : Tiles lo hi l) (hlo : ∀ iv ∈ l, lo' ≤ iv.start) : Tiles lo' hi l :=
  ⟨fun iv hiv => ⟨hlo iv hiv, (h.1 iv hiv).2⟩, h.2⟩

/-- The intervals behind the first one lie behind its end. -/
lemma tail {iv : Interval} (h : Tiles lo hi (iv :: l)) : Tiles iv.stop hi l :=
  ⟨fun next hnext => ⟨(List.pairwise_cons.mp h.2).1 next hnext,
    (h.1 next (List.mem_cons_of_mem _ hnext)).2⟩, (List.pairwise_cons.mp h.2).2⟩

/-- Some of several intervals side by side lie side by side. -/
lemma sublist (h : Tiles lo hi l) (hs : l'.Sublist l) : Tiles lo hi l' :=
  ⟨fun iv hiv => h.1 iv (hs.subset hiv), h.2.sublist hs⟩

/-- Intervals of adjacent ranges lie side by side.

**Proof sketch.** Those of the first range end where the second one starts, or before. -/
lemma append {mid : Nat} (h : Tiles lo mid l) (h' : Tiles mid hi l') (hlo : lo ≤ mid)
    (hhi : mid ≤ hi) : Tiles lo hi (l ++ l') := by
  refine ⟨fun iv hiv => ?_, List.pairwise_append.mpr ⟨h.2, h'.2, fun a ha b hb => ?_⟩⟩
  · rcases List.mem_append.mp hiv with hiv | hiv
    · have := h.1 iv hiv
      omega
    · have := h'.1 iv hiv
      omega
  · have := h.1 a ha
    have := h'.1 b hb
    omega

/-- Two of the intervals are the same, or one of them ends before the other one starts. -/
lemma trichotomy (h : Tiles lo hi l) {a b : Interval} (ha : a ∈ l) (hb : b ∈ l) :
    b = a ∨ a.stop ≤ b.start ∨ b.stop ≤ a.start := by
  obtain ⟨i, hi, rfl⟩ := List.mem_iff_getElem.mp ha
  obtain ⟨j, hj, rfl⟩ := List.mem_iff_getElem.mp hb
  rcases Nat.lt_trichotomy i j with hlt | rfl | hgt
  · exact .inr (.inl (List.pairwise_iff_getElem.mp h.2 i j hi hj hlt))
  · exact .inl rfl
  · exact .inr (.inr (List.pairwise_iff_getElem.mp h.2 j i hj hi hgt))

/-- Further on means starting later and not ending earlier. -/
lemma nested (h : Tiles lo hi l) :
    l.Pairwise fun a b => a.start ≤ b.start ∧ a.stop ≤ b.stop := by
  refine h.2.imp_of_mem fun {a b} ha hb hab => ?_
  have := h.1 a ha
  have := h.1 b hb
  omega

end Tiles

/-! ### Sweeps -/

namespace Sweep

/-- A step that goes on in range, keeps an invariant and maps intervals side by side between its
offset and the next one. The offsets of the sweep count from `base`. -/
def Move.Tiles (base hi : Nat) (J : Nat → σ → Prop) (g : α → List Interval) (P : α → Prop)
    (pos : Nat) : Move σ α → Prop
  | .stop => True
  | .go verdict next s =>
    pos ≤ next ∧ next ≤ hi ∧ J next s ∧
      ∀ a, verdict = .accepted a → LexPaint.Tiles (base + pos) (base + next) (g a) ∧ P a

/-- The intervals that a sweep maps lie side by side in its range.

**Proof sketch.** What was mapped so far lies before the current offset, and what is accepted there
lies between it and the next one. -/
theorem collect_tiles {step : Nat → σ → Checked (Move σ α)} {J : Nat → σ → Prop}
    {g : α → List Interval} {P : α → Prop} (base : Nat)
    (hstep : ∀ pos s, lo ≤ pos → pos ≤ hi → J pos s →
      Ensures (step pos s) (Move.Tiles base hi J g P pos))
    {s : σ} (hle : lo ≤ hi) (hJ : J lo s) :
    Ensures (collect step hi lo s) fun h =>
      LexPaint.Tiles (base + lo) (base + hi) (h.items.toList.flatMap g) ∧ ∀ a ∈ h.items, P a := by
  let I : Nat → σ → Harvest α → Prop := fun pos s h =>
    lo ≤ pos ∧ pos ≤ hi ∧ J pos s ∧
      LexPaint.Tiles (base + lo) (base + pos) (h.items.toList.flatMap g) ∧ ∀ a ∈ h.items, P a
  refine collect_ensures (I := I) (fun pos s h hI => ?_) ?_ ?_
  · obtain ⟨hlo, hhi, hJ, htiles, hP⟩ := hI
    refine (hstep pos s hlo hhi hJ).mono fun m hm => ?_
    cases m with
    | stop => trivial
    | go verdict next s' =>
      obtain ⟨hpos, hnext, hJ', hacc⟩ := hm
      refine ⟨hnext, by omega, hnext, hJ', ?_, forall_mem_add hP fun a ha => (hacc a ha).2⟩
      cases verdict with
      | nothing => exact htiles.mono (Nat.le_refl _) (by omega)
      | refused => exact htiles.mono (Nat.le_refl _) (by omega)
      | accepted a =>
        simp only [Harvest.add, Array.toList_push, List.flatMap_append, List.flatMap_singleton]
        exact htiles.append (hacc a rfl).1 (by omega) (by omega)
  · exact ⟨Nat.le_refl _, hle, hJ, by simpa [Harvest.empty] using Tiles.nil, forall_mem_empty⟩
  · intro pos s h hI
    exact ⟨hI.2.2.2.1.mono (Nat.le_refl _) (by have := hI.2.1; omega), hI.2.2.2.2⟩

/-- The rule for sweeps that map one interval at a time. -/
theorem collect_intervals {step : Nat → σ → Checked (Move σ Interval)} {J : Nat → σ → Prop}
    {P : Interval → Prop}
    (hstep : ∀ pos s, lo ≤ pos → pos ≤ hi → J pos s →
      Ensures (step pos s) (Move.Tiles 0 hi J (fun iv => [iv]) P pos))
    {s : σ} (hle : lo ≤ hi) (hJ : J lo s) :
    Ensures (collect step hi lo s) fun h =>
      LexPaint.Tiles lo hi h.items.toList ∧ ∀ iv ∈ h.items, P iv := by
  refine (collect_tiles 0 hstep hle hJ).mono fun h hh => ?_
  rwa [List.flatMap_singleton', Nat.zero_add, Nat.zero_add] at hh

end Sweep

/-! ### Sets -/

namespace IntervalSet

variable {s : IntervalSet}

/-- A sorted set of intervals in a range. -/
structure Fits (lo hi : Nat) (s : IntervalSet) : Prop where
  sorted : s.Sorted
  within : ∀ iv ∈ s.intervals, lo ≤ iv.start ∧ iv.start ≤ iv.stop ∧ iv.stop ≤ hi

/-- An empty set fits every range. -/
lemma fits_empty : Fits lo hi empty :=
  ⟨sorted_empty, by simp [empty]⟩

/-- After a reset a set fits every range. -/
lemma fits_reset : Fits lo hi s.reset :=
  ⟨List.Pairwise.nil, by simp [reset]⟩

/-- A set fits a range with one more interval in it. -/
lemma Fits.add (h : s.Fits lo hi) {iv : Interval}
    (hiv : lo ≤ iv.start ∧ iv.start ≤ iv.stop ∧ iv.stop ≤ hi) : (s.add iv).Fits lo hi := by
  refine ⟨h.sorted.add iv, fun x hx => ?_⟩
  rcases mem_add.mp hx with rfl | hx
  · exact hiv
  · exact h.within x hx

/-- A set fits a range with more intervals in it. -/
lemma Fits.addAll (h : s.Fits lo hi) {ivs : Array Interval}
    (hivs : ∀ iv ∈ ivs, lo ≤ iv.start ∧ iv.start ≤ iv.stop ∧ iv.stop ≤ hi) :
    (s.addAll ivs).Fits lo hi := by
  refine ⟨h.sorted.addAll ivs, fun x hx => ?_⟩
  rcases mem_addAll.mp hx with hx | hx
  · exact hivs x hx
  · exact h.within x hx

/-- Counting leaves a set in its range. -/
lemma Fits.count (h : s.Fits lo hi) (tested accepted : Nat) :
    (s.count tested accepted).Fits lo hi :=
  ⟨h.sorted, h.within⟩

end IntervalSet

end LexPaint
