import LexPaint.Proofs.SortedSets

set_option relaxedAutoImplicit false
set_option autoImplicit false

/-!
# Interval sets moved by an offset

What was mapped in a text can be moved by an offset, interval by interval. Queries at a moved offset
then give the moved answer, and moved intervals are recorded where the intervals would be.

## Main definitions

* `Interval.shift`, `IntervalSet.shift`, `CompositeSet.shift`, `Layout.shift`: moving what was mapped.

## Main results

* `bisect_map`: the split point of a mapped array.
* `IntervalSet.inString_shift`, `CompositeSet.inEither_shift`: queries.
* `IntervalSet.add_shift`, `IntervalSet.addAll_shift`: recording intervals.
* `IntervalSet.foldl_add_perm`: what a set holds after recording some intervals.
-/

namespace LexPaint

/-! ### Bisection -/

section Bisect

variable {α β : Type} {a : Array α} {p : β → Bool}

/-- Whether a mapped element satisfies a predicate. -/
lemma holdsAt_map (f : α → β) (i : Nat) : holdsAt (a.map f) p i = holdsAt a (p ∘ f) i := by
  unfold holdsAt
  rw [Array.getElem?_map]
  cases a[i]? <;> rfl

/-- Narrowing takes the same steps in a mapped array. -/
lemma bisectFrom_map (f : α → β) (base size : Nat) :
    bisectFrom (a.map f) p base size = bisectFrom a (p ∘ f) base size := by
  fun_induction bisectFrom a (p ∘ f) base size with
  | case1 base size hlt half mid ih =>
    rw [dite_eq_ite] at ih
    rw [bisectFrom, if_pos hlt]
    dsimp only
    rw [holdsAt_map]
    exact ih
  | case2 base size hle => rw [bisectFrom, if_neg hle]

/-- The split point of a mapped array is that of the array. -/
lemma bisect_map (f : α → β) : bisect (a.map f) p = bisect a (p ∘ f) := by
  unfold bisect
  dsimp only
  rw [Array.size_map, bisectFrom_map, holdsAt_map]

end Bisect

/-! ### Intervals -/

/-- The interval moved by an offset. -/
def Interval.shift (b : Nat) (iv : Interval) : Interval :=
  ⟨b + iv.start, b + iv.stop, iv.kind⟩

namespace Interval

variable {b k : Nat} {iv : Interval}

/-- A moved interval starts where the start was moved to. -/
@[simp]
lemma start_shift (b : Nat) (iv : Interval) : (iv.shift b).start = b + iv.start := rfl

/-- A moved interval ends where the end was moved to. -/
@[simp]
lemma stop_shift (b : Nat) (iv : Interval) : (iv.shift b).stop = b + iv.stop := rfl

/-- A moved interval contains the moved offsets. -/
@[simp]
lemma contains_shift : (iv.shift b).contains (b + k) = iv.contains k := by
  simp [contains]

/-- An interval is empty if it is so when moved. -/
@[simp]
lemma isEmpty_shift : (iv.shift b).isEmpty = iv.isEmpty := by
  simp [isEmpty]

end Interval

/-! ### Sets -/

/-- The set with every interval of the current pass moved by an offset. -/
def IntervalSet.shift (b : Nat) (s : IntervalSet) : IntervalSet :=
  { s with intervals := s.intervals.map (Interval.shift b) }

namespace IntervalSet

variable {b k : Nat} {s : IntervalSet} {iv : Interval}

/-- The intervals of a moved set are the moved ones. -/
@[simp]
lemma intervals_shift (b : Nat) (s : IntervalSet) :
    (s.shift b).intervals = s.intervals.map (Interval.shift b) := rfl

/-- An empty set stays empty when moved. -/
@[simp]
lemma shift_empty (b : Nat) : empty.shift b = empty := by
  simp [shift, empty]

/-- Counts do not change when all is moved. -/
lemma shift_count (b tested accepted : Nat) :
    (s.count tested accepted).shift b = (s.shift b).count tested accepted := rfl

/-- A set keeps its size when moved. -/
@[simp]
lemma size_shift (b : Nat) (s : IntervalSet) : (s.shift b).size = s.size := by
  simp [size]

/-! ### Queries -/

/-- The last interval that fits is found where it was moved to. -/
lemma lastWhere_shift (p : Interval → Bool) :
    (s.shift b).lastWhere p = (s.lastWhere (p ∘ Interval.shift b)).map (Interval.shift b) := by
  unfold lastWhere
  rw [intervals_shift, bisect_map]
  cases bisect s.intervals (p ∘ Interval.shift b) with
  | zero => rfl
  | succ n => exact Array.getElem?_map

/-- The interval at a moved offset is the moved interval. -/
lemma intervalAt_shift : (s.shift b).intervalAt (b + k) = (s.intervalAt k).map (Interval.shift b) := by
  have hearly : (fun iv : Interval => decide (iv.start ≤ b + k)) ∘ Interval.shift b =
      fun iv => decide (iv.start ≤ k) := by
    funext iv
    simp
  unfold intervalAt
  rw [lastWhere_shift, hearly]
  cases s.lastWhere fun iv => decide (iv.start ≤ k) with
  | none => rfl
  | some iv =>
    rw [Option.map_some, Option.filter_some, Option.filter_some, Interval.contains_shift]
    cases iv.contains k <;> rfl

/-- The literal that contains a moved offset is the moved literal. -/
lemma inString_shift : (s.shift b).inString (b + k) = (s.inString k).map (b + ·) := by
  unfold inString
  rw [intervalAt_shift, Option.map_map, Option.map_map]
  rfl

/-- Whether an offset lies in a literal does not change when all is moved. -/
lemma isSome_inString_shift : ((s.shift b).inString (b + k)).isSome = (s.inString k).isSome := by
  rw [inString_shift, Option.isSome_map]

/-! ### Recording intervals -/

/-- A moved interval is inserted where the interval would be. -/
lemma insertOrdered_map (intervals : Array Interval) (iv : Interval) :
    insertOrdered (intervals.map (Interval.shift b)) (iv.shift b) =
      (insertOrdered intervals iv).map (Interval.shift b) := by
  have hearly : (fun x : Interval => decide (x.start ≤ (iv.shift b).start)) ∘ Interval.shift b =
      fun x => decide (x.start ≤ iv.start) := by
    funext x
    simp
  unfold insertOrdered
  rw [Array.back?_map, bisect_map, hearly]
  cases intervals.back? with
  | none => simp
  | some last =>
    simp only [Option.map_some, Interval.start_shift, Nat.add_lt_add_iff_left]
    split
    · have hle : bisect intervals (fun x => decide (x.start ≤ iv.start)) ≤
          (intervals.map (Interval.shift b)).size := by
        rw [Array.size_map]
        exact bisect_le_size
      rw [Array.insertIdxIfInBounds, dif_pos hle, Array.insertIdxIfInBounds, dif_pos bisect_le_size]
      refine Array.toList_inj.mp ?_
      rw [Array.toList_insertIdx, Array.toList_map, Array.toList_map, Array.toList_insertIdx,
        List.map_insertIdx]
    · rw [Array.map_push]

/-- A moved interval is recorded where the interval would be. -/
lemma add_shift (iv : Interval) : (s.shift b).add (iv.shift b) = (s.add iv).shift b := by
  simp only [add, shift, insertOrdered_map]

/-- Moved intervals are recorded where the intervals are. -/
lemma addAll_shift (ivs : Array Interval) :
    (s.shift b).addAll (ivs.map (Interval.shift b)) = (s.addAll ivs).shift b := by
  unfold addAll
  rw [Array.foldl_map, ← Array.foldl_toList, ← Array.foldl_toList]
  generalize ivs.toList = l
  induction l generalizing s with
  | nil => rfl
  | cons iv rest ih => rw [List.foldl_cons, List.foldl_cons, add_shift, ih]

/-- A set holds one more interval after it was recorded. -/
lemma add_perm (s : IntervalSet) (iv : Interval) :
    (s.add iv).intervals.toList.Perm (iv :: s.intervals.toList) := by
  have hpush : (s.intervals.push iv).toList.Perm (iv :: s.intervals.toList) := by
    rw [Array.toList_push]
    exact List.perm_append_singleton iv s.intervals.toList
  simp only [add, insertOrdered]
  split
  · split
    · rw [Array.insertIdxIfInBounds, dif_pos bisect_le_size, Array.toList_insertIdx]
      exact List.perm_insertIdx iv _ (by simpa using bisect_le_size)
    · exact hpush
  · exact hpush

/-- A set holds what was recorded in it, each interval as often as it was recorded. -/
theorem foldl_add_perm (s : IntervalSet) (ivs : List Interval) :
    (ivs.foldl IntervalSet.add s).intervals.toList.Perm (s.intervals.toList ++ ivs) := by
  induction ivs generalizing s with
  | nil => rw [List.foldl_nil, List.append_nil]
  | cons iv rest ih =>
    refine (ih (s.add iv)).trans ?_
    refine ((add_perm s iv).append_right rest).trans ?_
    exact List.perm_middle.symm

end IntervalSet

/-! ### Layouts -/

/-- Both sets moved by an offset. -/
def CompositeSet.shift (b : Nat) (s : CompositeSet) : CompositeSet :=
  ⟨s.heredocs.shift b, s.operators.shift b⟩

/-- Whether an offset lies in a heredoc or a quote operator does not change when all is moved.

**Proof sketch.** Both questions that are asked are about offsets in sets, and the answers move. -/
lemma CompositeSet.inEither_shift {b k : Nat} {s : CompositeSet} :
    (s.shift b).inEither (b + k) = (s.inEither k).map (b + ·) := by
  have hheredoc (k : Nat) : (s.shift b).heredocAt (b + k) = (s.heredocAt k).map (b + ·) := by
    unfold heredocAt shift
    rw [IntervalSet.inString_shift]
    cases s.heredocs.inString k with
    | none => rfl
    | some start =>
      rw [Option.map_some, Option.filter_some, Option.filter_some, IntervalSet.inString_shift,
        Option.isNone_map]
      cases (s.operators.inString start).isNone <;> rfl
  unfold inEither
  rw [hheredoc]
  cases s.heredocAt k with
  | some start => rfl
  | none =>
    show ((s.shift b).operators.inString (b + k)).filter _ = Option.map _ _
    rw [show (s.shift b).operators = s.operators.shift b from rfl, IntervalSet.inString_shift]
    dsimp only
    cases s.operators.inString k with
    | none => rfl
    | some start =>
      rw [Option.map_some, Option.filter_some, Option.filter_some, hheredoc, Option.isNone_map]
      cases (s.heredocAt start).isNone <;> rfl

/-- The layout moved by an offset. -/
def Layout.shift (b : Nat) (l : Layout) : Layout :=
  { l.mapSets (IntervalSet.shift b) with commentStarts := l.commentStarts.map (b + ·) }

/-- An empty layout stays empty when moved. -/
@[simp]
lemma Layout.shift_empty (b : Nat) : Layout.empty.shift b = .empty := by
  simp [shift, mapSets, empty, CompositeSet.mapSets, CompositeSet.empty]

/-- The strings of a moved layout are the moved ones. -/
@[simp]
lemma Layout.quotes_shift (b : Nat) (l : Layout) : (l.shift b).quotes = l.quotes.shift b := rfl

/-- The embedded sections of a moved layout are the moved ones. -/
@[simp]
lemma Layout.embedded_shift (b : Nat) (l : Layout) : (l.shift b).embedded = l.embedded.shift b := rfl

/-- The starts of comments in a moved layout are the moved ones. -/
@[simp]
lemma Layout.commentStarts_shift (b : Nat) (l : Layout) :
    (l.shift b).commentStarts = l.commentStarts.map (b + ·) := rfl

/-- Whether an offset lies in a heredoc or a quote operator does not change when all is moved. -/
lemma Layout.isSome_inEither_shift {b k : Nat} {l : Layout} :
    ((l.shift b).composite.inEither (b + k)).isSome = (l.composite.inEither k).isSome := by
  show ((l.composite.shift b).inEither (b + k)).isSome = _
  rw [CompositeSet.inEither_shift, Option.isSome_map]

/-- What is mapped in a moved layout. -/
lemma Layout.allIntervals_shift (b : Nat) (l : Layout) :
    (l.shift b).allIntervals = l.allIntervals.map (Interval.shift b) := by
  simp [allIntervals, sets, shift, mapSets, CompositeSet.mapSets]

end LexPaint
