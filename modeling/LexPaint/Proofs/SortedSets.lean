import LexPaint.Layout
import Mathlib.Data.List.InsertIdx

set_option relaxedAutoImplicit false
set_option autoImplicit false

/-!
# Interval sets in order

An interval set keeps its intervals in the order of their starts, whatever the order in which they
are added. On such a set the bisection behind the queries finds what it looks for: the nearest
interval that starts early enough, and the first one from an offset on.

## Main definitions

* `IntervalSet.Sorted`: the intervals are in the order of their starts.
* `IntervalSet.Nested`: further on means starting later and not ending earlier.

## Main results

* `IntervalSet.mem_add`, `IntervalSet.Sorted.add`: adding an interval.
* `IntervalSet.pairwise_add`: adding an interval to a set ordered by a further relation.
* `IntervalSet.isSome_intervalAt_iff`: on a nested set the containment query is membership in some
  interval.
* `IntervalSet.Nested.intervalAt_eq_some_iff`: which interval it finds.
* `IntervalSet.Sorted.firstFrom_eq_some`: the first interval from an offset on.
-/

namespace LexPaint

/-! ### Bisection without an order -/

section Bisect

variable {α : Type} {a : Array α} {p : α → Bool}

/-- An element that satisfies a predicate is one of the array. -/
lemma lt_size_of_holdsAt {i : Nat} (h : holdsAt a p i = true) : i < a.size := by
  unfold holdsAt at h
  split at h
  · rename_i x hx
    exact (Array.getElem?_eq_some_iff.mp hx).1
  · cases h

/-- What it means that the element at an index satisfies a predicate. -/
lemma holdsAt_iff {i : Nat} : holdsAt a p i = true ↔ ∃ x, a[i]? = some x ∧ p x = true := by
  unfold holdsAt
  cases a[i]? <;> simp

/-- Narrowing ends at its base or at an element that satisfies the predicate.

**Proof sketch.** Induction along the narrowing. The base moves to elements that satisfy the
predicate only. -/
lemma bisectFrom_eq_or (base size : Nat) :
    bisectFrom a p base size = base ∨ holdsAt a p (bisectFrom a p base size) = true := by
  fun_induction bisectFrom a p base size with
  | case1 base size hlt half mid ih =>
    by_cases hm : holdsAt a p mid = true
    · rw [dif_pos hm] at ih
      rw [if_pos hm]
      rcases ih with ih | ih
      · rw [ih]
        exact .inr hm
      · exact .inr ih
    · rw [dif_neg hm] at ih
      rw [if_neg hm]
      exact ih
  | case2 base size hle => exact .inl rfl

/-- The element before a split point satisfies the predicate, in whatever order the array is.

**Proof sketch.** The search ends at its base or at such an element, and the last comparison tells
which. -/
lemma holdsAt_of_bisect {n : Nat} (h : bisect a p = n + 1) : holdsAt a p n = true := by
  unfold bisect at h
  split at h
  · omega
  · simp only at h
    split at h
    · rename_i hp
      rwa [Nat.add_right_cancel h] at hp
    · rename_i hp
      rcases bisectFrom_eq_or (a := a) (p := p) 0 a.size with h0 | h0
      · omega
      · exact absurd h0 hp

/-- A split point lies in the array or at its end. -/
lemma bisect_le_size : bisect a p ≤ a.size := by
  cases h : bisect a p with
  | zero => exact Nat.zero_le _
  | succ n => exact lt_size_of_holdsAt (holdsAt_of_bisect h)

/-- Inserting into an ordered list at a place that fits keeps the order.

**Proof sketch.** Induction on the list, by cases on the place. -/
lemma pairwise_insertIdx {R : α → α → Prop} {l : List α} {x : α} {k : Nat} (hl : l.Pairwise R)
    (hbefore : ∀ i y, l[i]? = some y → i < k → R y x)
    (hafter : ∀ i y, l[i]? = some y → k ≤ i → R x y) : (l.insertIdx k x).Pairwise R := by
  induction l generalizing k with
  | nil =>
    cases k with
    | zero => simp
    | succ k => simp
  | cons y rest ih =>
    cases k with
    | zero =>
      rw [List.insertIdx_zero]
      refine List.Pairwise.cons (fun z hz => ?_) hl
      obtain ⟨i, hi⟩ := List.mem_iff_getElem?.mp hz
      exact hafter i z hi (Nat.zero_le i)
    | succ k =>
      rw [List.insertIdx_succ_cons]
      obtain ⟨hy, hrest⟩ := List.pairwise_cons.mp hl
      refine List.Pairwise.cons (fun z hz => ?_) (ih hrest ?_ ?_)
      · rcases List.eq_or_mem_of_mem_insertIdx hz with rfl | hz
        · exact hbefore 0 y rfl (by omega)
        · exact hy z hz
      · intro i z hi hlt
        exact hbefore (i + 1) z (by simpa using hi) (by omega)
      · intro i z hi hge
        exact hafter (i + 1) z (by simpa using hi) (by omega)

end Bisect

namespace IntervalSet

variable {s : IntervalSet} {iv : Interval} {pos : Nat}

/-- The intervals are in the order of their starts. -/
def Sorted (s : IntervalSet) : Prop :=
  s.intervals.toList.Pairwise fun a b => a.start ≤ b.start

/-- The intervals are in the order of their starts and of their ends. -/
def Nested (s : IntervalSet) : Prop :=
  s.intervals.toList.Pairwise fun a b => a.start ≤ b.start ∧ a.stop ≤ b.stop

/-- Intervals in the order of starts and ends are in the order of their starts. -/
lemma Nested.sorted (h : s.Nested) : s.Sorted :=
  h.imp fun hab => hab.1

/-- An empty set is sorted. -/
lemma sorted_empty : empty.Sorted :=
  List.Pairwise.nil

/-! ### Adding an interval -/

/-- Inserting adds one interval. -/
lemma mem_insertOrdered {intervals : Array Interval} {x : Interval} :
    x ∈ insertOrdered intervals iv ↔ x = iv ∨ x ∈ intervals := by
  unfold insertOrdered
  split
  · split
    · rw [Array.insertIdxIfInBounds, dif_pos bisect_le_size, Array.mem_insertIdx]
    · rw [Array.mem_push, or_comm]
  · rw [Array.mem_push, or_comm]

/-- A set holds what it has held, and the interval that is added. -/
@[simp]
lemma mem_add {x : Interval} : x ∈ (s.add iv).intervals ↔ x = iv ∨ x ∈ s.intervals :=
  mem_insertOrdered

/-- A set holds what it has held, and the intervals that are added one after another. -/
lemma mem_foldl_add {ivs : List Interval} {x : Interval} :
    x ∈ (ivs.foldl add s).intervals ↔ x ∈ ivs ∨ x ∈ s.intervals := by
  induction ivs generalizing s with
  | nil => simp
  | cons first rest ih =>
    rw [List.foldl_cons, ih, mem_add, List.mem_cons]
    exact or_left_comm.trans or_assoc.symm

/-- A set holds what it has held, and the intervals that are added. -/
lemma mem_addAll {ivs : Array Interval} {x : Interval} :
    x ∈ (s.addAll ivs).intervals ↔ x ∈ ivs ∨ x ∈ s.intervals := by
  rw [addAll, ← Array.foldl_toList, mem_foldl_add, Array.mem_toList_iff]

/-- In a sorted set later intervals start later. -/
lemma Sorted.start_le (h : s.Sorted) {i j : Nat} (hij : i ≤ j) {a b : Interval}
    (ha : s.intervals[i]? = some a) (hb : s.intervals[j]? = some b) : a.start ≤ b.start := by
  obtain ⟨hi, rfl⟩ := Array.getElem?_eq_some_iff.mp ha
  obtain ⟨hj, rfl⟩ := Array.getElem?_eq_some_iff.mp hb
  rcases Nat.lt_or_eq_of_le hij with hlt | rfl
  · exact List.pairwise_iff_getElem.mp h i j (by simpa using hi) (by simpa using hj) hlt
  · exact Nat.le_refl _

/-- A predicate on starts that holds of small ones splits a sorted set. -/
lemma Sorted.mono (h : s.Sorted) {p : Interval → Bool}
    (hp : ∀ a b : Interval, a.start ≤ b.start → p b = true → p a = true) (i j : Nat) (hij : i ≤ j)
    (hj : holdsAt s.intervals p j = true) : holdsAt s.intervals p i = true := by
  obtain ⟨b, hb, hpb⟩ := holdsAt_iff.mp hj
  have hi : i < s.intervals.size := Nat.lt_of_le_of_lt hij (lt_size_of_holdsAt hj)
  have ha := Array.getElem?_eq_getElem hi
  exact holdsAt_iff.mpr ⟨_, ha, hp _ b (h.start_le hij ha hb) hpb⟩

/-- On a sorted set the intervals before the split point are those that satisfy the predicate. -/
lemma Sorted.lt_bisect_iff (h : s.Sorted) {p : Interval → Bool}
    (hp : ∀ a b : Interval, a.start ≤ b.start → p b = true → p a = true) {i : Nat}
    (hi : s.intervals[i]? = some iv) : i < bisect s.intervals p ↔ p iv = true := by
  rw [← holdsAt_iff_lt_bisect (h.mono hp), holdsAt_iff]
  constructor
  · rintro ⟨x, hx, hpx⟩
    rw [hi] at hx
    rwa [Option.some.inj hx]
  · intro hpx
    exact ⟨iv, hi, hpx⟩

/-- Adding an interval to a sorted set keeps every order that the new interval fits into.

**Proof sketch.** The interval is put at the end if it starts behind the last one. Otherwise the
split point of the starts is where it fits. -/
theorem pairwise_add {R : Interval → Interval → Prop} (hs : s.Sorted)
    (hR : s.intervals.toList.Pairwise R)
    (hbefore : ∀ x ∈ s.intervals, x.start ≤ iv.start → R x iv)
    (hafter : ∀ x ∈ s.intervals, iv.start < x.start → R iv x) :
    (s.add iv).intervals.toList.Pairwise R := by
  -- an interval that starts behind all others comes last
  have hpush (hlast : ∀ x ∈ s.intervals, x.start ≤ iv.start) :
      (s.intervals.push iv).toList.Pairwise R := by
    rw [Array.toList_push, List.pairwise_append]
    refine ⟨hR, List.pairwise_singleton _ _, fun x hx y hy => ?_⟩
    obtain rfl := List.mem_singleton.mp hy
    have hx' : x ∈ s.intervals := by simpa using hx
    exact hbefore x hx' (hlast x hx')
  simp only [add, insertOrdered]
  split
  · rename_i last hback
    rw [Array.back?_eq_getElem?] at hback
    split
    · rw [Array.insertIdxIfInBounds, dif_pos bisect_le_size, Array.toList_insertIdx]
      have hp : ∀ a b : Interval, a.start ≤ b.start →
          decide (b.start ≤ iv.start) = true → decide (a.start ≤ iv.start) = true := by
        intro a b hab hb
        have := of_decide_eq_true hb
        exact decide_eq_true (by omega)
      refine pairwise_insertIdx hR (fun i x hi hlt => ?_) (fun i x hi hge => ?_)
      · rw [Array.getElem?_toList] at hi
        have := (hs.lt_bisect_iff hp hi).mp hlt
        exact hbefore x (Array.mem_of_getElem? hi) (of_decide_eq_true this)
      · rw [Array.getElem?_toList] at hi
        have hn : ¬ decide (x.start ≤ iv.start) = true := by
          rw [← hs.lt_bisect_iff hp hi]
          omega
        refine hafter x (Array.mem_of_getElem? hi) ?_
        simpa using hn
    · refine hpush fun x hx => ?_
      obtain ⟨i, hi⟩ := Array.mem_iff_getElem?.mp hx
      have := (Array.getElem?_eq_some_iff.mp hi).1
      have := hs.start_le (by omega : i ≤ s.intervals.size - 1) hi hback
      omega
  · rename_i hback
    refine hpush fun x hx => ?_
    rw [Array.back?_eq_none_iff] at hback
    simp [hback] at hx

/-- A sorted set stays sorted when an interval is added. -/
lemma Sorted.add (h : s.Sorted) (iv : Interval) : (s.add iv).Sorted :=
  pairwise_add h h (fun _ _ hle => hle) fun _ _ hlt => Nat.le_of_lt hlt

/-- A sorted set stays sorted when intervals are added. -/
lemma Sorted.addAll (h : s.Sorted) (ivs : Array Interval) : (s.addAll ivs).Sorted := by
  rw [IntervalSet.addAll, ← Array.foldl_toList]
  generalize ivs.toList = l
  induction l generalizing s with
  | nil => exact h
  | cons x rest ih => exact ih (h.add x)

/-- Several intervals, each of them behind the earlier ones, fit into every order that relates them
to each other and to the set.

**Proof sketch.** Induction on the new intervals. Those that were added already belong to the set for
the later ones. -/
theorem pairwise_addAll {R : Interval → Interval → Prop} {ivs : Array Interval} (hs : s.Sorted)
    (hR : s.intervals.toList.Pairwise R)
    (hivs : ivs.toList.Pairwise fun a b => a.start ≤ b.start ∧ R a b)
    (hbefore : ∀ x ∈ s.intervals, ∀ y ∈ ivs, x.start ≤ y.start → R x y)
    (hafter : ∀ x ∈ s.intervals, ∀ y ∈ ivs, y.start < x.start → R y x) :
    (s.addAll ivs).intervals.toList.Pairwise R := by
  rw [IntervalSet.addAll, ← Array.foldl_toList]
  have hmem (y : Interval) : y ∈ ivs ↔ y ∈ ivs.toList := Array.mem_toList_iff.symm
  simp only [hmem] at hbefore hafter
  generalize ivs.toList = l at hivs hbefore hafter
  induction l generalizing s with
  | nil => exact hR
  | cons y rest ih =>
    obtain ⟨hy, hrest⟩ := List.pairwise_cons.mp hivs
    refine ih (hs.add y) ?_ hrest ?_ ?_
    · exact pairwise_add hs hR (fun x hx => hbefore x hx y (List.mem_cons_self ..))
        fun x hx => hafter x hx y (List.mem_cons_self ..)
    · intro x hx z hz hle
      rcases mem_add.mp hx with rfl | hx
      · exact (hy z hz).2
      · exact hbefore x hx z (List.mem_cons_of_mem _ hz) hle
    · intro x hx z hz hlt
      rcases mem_add.mp hx with rfl | hx
      · have := (hy z hz).1
        omega
      · exact hafter x hx z (List.mem_cons_of_mem _ hz) hlt

/-- Intervals in the order of their starts are put behind those that start before them.

**Proof sketch.** Induction on the intervals. Each of them starts behind the last one of the set. -/
lemma toList_foldl_add {l : List Interval}
    (h : (s.intervals.toList ++ l).Pairwise fun a b => a.start ≤ b.start) :
    (l.foldl IntervalSet.add s).intervals.toList = s.intervals.toList ++ l := by
  induction l generalizing s with
  | nil => simp
  | cons x rest ih =>
    have hpush : (s.add x).intervals.toList = s.intervals.toList ++ [x] := by
      simp only [IntervalSet.add, insertOrdered]
      split
      · rename_i last hlast
        have hmem : last ∈ s.intervals.toList := by
          rw [Array.mem_toList_iff]
          exact Array.mem_of_back? hlast
        have hle := (List.pairwise_append.mp h).2.2 last hmem x (List.mem_cons_self ..)
        rw [if_neg (by omega), Array.toList_push]
      · rw [Array.toList_push]
    rw [List.foldl_cons, ih (by rw [hpush, List.append_assoc]; exact h), hpush, List.append_assoc]
    rfl

/-- An empty set takes intervals in order as they are. -/
lemma toList_addAll {ivs : Array Interval} (hs : s.intervals = #[])
    (h : ivs.toList.Pairwise fun a b => a.start ≤ b.start) :
    (s.addAll ivs).intervals.toList = ivs.toList := by
  have hnil : s.intervals.toList = [] := by rw [hs]
  rw [IntervalSet.addAll, ← Array.foldl_toList, toList_foldl_add (by rwa [hnil]), hnil]
  rfl

/-! ### Queries -/

/-- What is found is an interval of the set that fits. -/
lemma mem_of_lastWhere {p : Interval → Bool} (h : s.lastWhere p = some iv) :
    iv ∈ s.intervals ∧ p iv = true := by
  unfold lastWhere at h
  split at h
  · cases h
  · rename_i n hn
    obtain ⟨x, hx, hp⟩ := holdsAt_iff.mp (holdsAt_of_bisect hn)
    rw [h] at hx
    rw [← Option.some.inj hx] at hp
    exact ⟨Array.mem_of_getElem? h, hp⟩

/-- What a containment query finds is an interval of the set that contains the offset. -/
lemma mem_of_intervalAt (h : s.intervalAt pos = some iv) :
    iv ∈ s.intervals ∧ iv.start ≤ pos ∧ pos < iv.stop := by
  obtain ⟨hl, hc⟩ := Option.filter_eq_some_iff.mp h
  exact ⟨(mem_of_lastWhere hl).1, Interval.contains_iff.mp hc⟩

/-- An offset lies in a literal if an interval is found there. -/
lemma isSome_inString : (s.inString pos).isSome = (s.intervalAt pos).isSome := by
  simp [inString]

/-- No offset lies in a literal of an empty set. -/
lemma inString_of_empty (h : s.intervals = #[]) : s.inString pos = none := by
  cases hat : s.intervalAt pos with
  | none => rw [inString, hat, Option.map_none]
  | some iv =>
    have := (mem_of_intervalAt hat).1
    simp [h] at this

/-- On a nested set the nearest interval that starts at or before an offset is found, and no other one
that starts there reaches further.

**Proof sketch.** The split point lies behind every interval that starts early enough, and in a
nested set the one in front of it reaches furthest. -/
lemma Nested.exists_lastWhere (h : s.Nested) {x : Interval} (hx : x ∈ s.intervals)
    (hle : x.start ≤ pos) : ∃ iv, s.lastWhere (fun y => decide (y.start ≤ pos)) = some iv ∧
      x.stop ≤ iv.stop := by
  obtain ⟨i, hi⟩ := Array.mem_iff_getElem?.mp hx
  have hp : ∀ a b : Interval, a.start ≤ b.start →
      decide (b.start ≤ pos) = true → decide (a.start ≤ pos) = true := by
    intro a b hab hb
    have := of_decide_eq_true hb
    exact decide_eq_true (by omega)
  have hlt := (h.sorted.lt_bisect_iff hp hi).mpr (decide_eq_true hle)
  unfold lastWhere
  split
  · omega
  · rename_i n hn
    obtain ⟨y, hy, -⟩ := holdsAt_iff.mp (holdsAt_of_bisect hn)
    refine ⟨y, hy, ?_⟩
    obtain ⟨hi', rfl⟩ := Array.getElem?_eq_some_iff.mp hi
    obtain ⟨hn', rfl⟩ := Array.getElem?_eq_some_iff.mp hy
    rcases Nat.lt_or_eq_of_le (by omega : i ≤ n) with hlt' | rfl
    · exact (List.pairwise_iff_getElem.mp h i n (by simpa using hi') (by simpa using hn') hlt').2
    · exact Nat.le_refl _

/-- On a nested set the containment query answers whether any interval contains the offset.

**Proof sketch.** The interval that is found starts early enough, and it reaches at least as far as
the one that contains the offset. -/
theorem isSome_intervalAt_iff (h : s.Nested) :
    (s.intervalAt pos).isSome = true ↔ ∃ iv ∈ s.intervals, iv.contains pos = true := by
  constructor
  · intro hsome
    obtain ⟨iv, hiv⟩ := Option.isSome_iff_exists.mp hsome
    obtain ⟨hmem, hc⟩ := mem_of_intervalAt hiv
    exact ⟨iv, hmem, Interval.contains_iff.mpr hc⟩
  · rintro ⟨x, hx, hc⟩
    obtain ⟨hle, hlt⟩ := Interval.contains_iff.mp hc
    obtain ⟨iv, hlast, hstop⟩ := h.exists_lastWhere hx hle
    have hstart := of_decide_eq_true (mem_of_lastWhere hlast).2
    rw [intervalAt, hlast, Option.filter_some, if_pos (Interval.contains_iff.mpr ⟨hstart, by omega⟩)]
    rfl

/-- An offset that lies in one interval of a nested set only is found there.

**Proof sketch.** Some interval is found, and it contains the offset, so it is the one. -/
theorem Nested.intervalAt_eq_some_iff (h : s.Nested)
    (hone : ∀ a ∈ s.intervals, ∀ b ∈ s.intervals, a.contains pos = true → b.contains pos = true →
      a = b) : s.intervalAt pos = some iv ↔ iv ∈ s.intervals ∧ iv.contains pos = true := by
  constructor
  · intro hat
    obtain ⟨hmem, hpos⟩ := mem_of_intervalAt hat
    exact ⟨hmem, Interval.contains_iff.mpr hpos⟩
  · rintro ⟨hmem, hpos⟩
    obtain ⟨found, hfound⟩ := Option.isSome_iff_exists.mp
      ((isSome_intervalAt_iff h).mpr ⟨iv, hmem, hpos⟩)
    obtain ⟨hmem', hpos'⟩ := mem_of_intervalAt hfound
    rw [hfound, hone found hmem' iv hmem (Interval.contains_iff.mpr hpos') hpos]

/-- An offset that is not found in a nested set lies behind the intervals that start at or before it. -/
lemma Nested.stop_le_of_inString (h : s.Nested) (hfree : (s.inString pos).isSome = false)
    (hiv : iv ∈ s.intervals) (hle : iv.start ≤ pos) : iv.stop ≤ pos := by
  by_contra hlt
  have hin := (isSome_intervalAt_iff h).mpr
    ⟨iv, hiv, Interval.contains_iff.mpr ⟨hle, Nat.lt_of_not_le hlt⟩⟩
  rw [← isSome_inString, hfree] at hin
  cases hin

/-- What starts before an interval that starts before an offset starts before the offset. -/
lemma startsBefore_of_le (pos : Nat) (a b : Interval) (hab : a.start ≤ b.start)
    (hb : decide (b.start < pos) = true) : decide (a.start < pos) = true := by
  have := of_decide_eq_true hb
  exact decide_eq_true (by omega)

/-- What is found from an offset on does not start before it, and nothing between does.

**Proof sketch.** The interval at the split point is the first that does not start before the offset. -/
theorem Sorted.firstFrom_eq_some (h : s.Sorted) (hf : s.firstFrom pos = some iv) :
    iv ∈ s.intervals ∧ pos ≤ iv.start ∧ ∀ x ∈ s.intervals, pos ≤ x.start → iv.start ≤ x.start := by
  unfold firstFrom at hf
  refine ⟨Array.mem_of_getElem? hf, ?_, fun x hx hle => ?_⟩
  · have := mt (h.lt_bisect_iff (startsBefore_of_le pos) hf).mpr (Nat.lt_irrefl _)
    simpa using this
  · obtain ⟨i, hi⟩ := Array.mem_iff_getElem?.mp hx
    have hn : ¬ i < bisect s.intervals fun iv => decide (iv.start < pos) := by
      rw [h.lt_bisect_iff (startsBefore_of_le pos) hi]
      simpa using hle
    exact h.start_le (Nat.le_of_not_lt hn) hf hi

/-- If some interval starts from an offset on, one is found. -/
lemma Sorted.exists_firstFrom (h : s.Sorted) {x : Interval} (hx : x ∈ s.intervals)
    (hle : pos ≤ x.start) : ∃ iv, s.firstFrom pos = some iv := by
  obtain ⟨i, hi⟩ := Array.mem_iff_getElem?.mp hx
  have hn : ¬ i < bisect s.intervals fun iv => decide (iv.start < pos) := by
    rw [h.lt_bisect_iff (startsBefore_of_le pos) hi]
    simpa using hle
  have hsize := (Array.getElem?_eq_some_iff.mp hi).1
  exact ⟨_, Array.getElem?_eq_getElem (by omega)⟩

end IntervalSet

end LexPaint
