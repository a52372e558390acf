/-!
# Bisection

The number of leading elements of an array that satisfy a predicate, found by halving. On an
array that the predicate splits into a true part followed by a false part this is the length of
the true part. On any other array the answer still is a function of the array alone: the probes
are fixed by its size.

## Main definitions

* `bisect`: the split point.

## Main results

* `holdsAt_iff_lt_bisect`: the split point is right for every array that the predicate splits.
-/

namespace LexPaint

variable {α : Type}

/-- Whether the element at index `i` exists and satisfies `p`. -/
def holdsAt (a : Array α) (p : α → Bool) (i : Nat) : Bool :=
  match a[i]? with
  | some x => p x
  | none => false

/-- Narrows the `size` candidates that start at `base` to one, keeping the last probe that
satisfied `p`. -/
def bisectFrom (a : Array α) (p : α → Bool) (base size : Nat) : Nat :=
  if 1 < size then
    let half := size / 2
    let mid := base + half
    bisectFrom a p (if holdsAt a p mid then mid else base) (size - half)
  else base
termination_by size

/-- The split point of `a` under `p`: for an array whose elements satisfying `p` come first, how
many they are. -/
def bisect (a : Array α) (p : α → Bool) : Nat :=
  if a.size = 0 then 0
  else
    let base := bisectFrom a p 0 a.size
    if holdsAt a p base then base + 1 else base

/-! ### The split point -/

/-- Narrowing keeps the split point: the candidate that is left satisfies `p` unless nothing was
probed below it, and nothing above it satisfies `p`.

**Proof sketch.** The probe in the middle becomes the new base only if it satisfies `p`; if it does
not, nothing from it on does. -/
theorem bisectFrom_spec {a : Array α} {p : α → Bool}
    (mono : ∀ i j, i ≤ j → holdsAt a p j = true → holdsAt a p i = true) (base size : Nat)
    (hsize : 0 < size) (hbase : base = 0 ∨ holdsAt a p base = true)
    (habove : ∀ i, base + size ≤ i → holdsAt a p i = false) :
    (bisectFrom a p base size = 0 ∨ holdsAt a p (bisectFrom a p base size) = true) ∧
      ∀ i, bisectFrom a p base size < i → holdsAt a p i = false := by
  fun_induction bisectFrom a p base size with
  | case1 base size hlt half mid ih =>
    by_cases hm : holdsAt a p mid = true
    · rw [dif_pos hm] at ih
      rw [if_pos hm]
      exact ih (by omega) (.inr hm) (fun i hi => habove i (by omega))
    · rw [dif_neg hm] at ih
      rw [if_neg hm]
      refine ih (by omega) hbase fun i hi => ?_
      by_cases hi' : holdsAt a p i = true
      · exact absurd (mono mid i (by omega) hi') hm
      · simpa using hi'
  | case2 base size hle =>
    exact ⟨hbase, fun i hi => habove i (by omega)⟩

/-- On an array that a predicate splits, exactly the elements before the split point satisfy it. -/
theorem holdsAt_iff_lt_bisect {a : Array α} {p : α → Bool}
    (mono : ∀ i j, i ≤ j → holdsAt a p j = true → holdsAt a p i = true) (i : Nat) :
    holdsAt a p i = true ↔ i < bisect a p := by
  unfold bisect
  split
  · rename_i hempty
    simp [holdsAt, hempty]
  · rename_i hsize
    obtain ⟨hbase, habove⟩ := bisectFrom_spec mono 0 a.size (by omega) (.inl rfl)
      (fun i hi => by simp [holdsAt, Array.getElem?_eq_none (by omega : a.size ≤ i)])
    simp only
    split
    · rename_i hp
      refine ⟨fun hi => Nat.lt_of_not_le fun hge => ?_, fun hi => mono i _ (by omega) hp⟩
      rw [habove i (by omega)] at hi
      cases hi
    · rename_i hp
      rcases hbase with hbase | hbase
      · refine ⟨fun hi => ?_, fun hi => by omega⟩
        rw [hbase] at hp
        exact absurd (mono 0 i (by omega) hi) hp
      · exact absurd hbase hp

end LexPaint
