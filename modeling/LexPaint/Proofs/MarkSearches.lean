import LexPaint.Proofs.ScannerMemory
import Mathlib.Data.List.Find
import Mathlib.Data.List.Forall2
import Mathlib.Order.Bounds.Defs

set_option relaxedAutoImplicit false
set_option autoImplicit false

/-!
# Searches for several marks

A scan for line comments asks one mark finder again and again where the next of its marks is, from
offsets that never decrease. What the finder remembers of a mark goes out of date at a time of its own, and
a mark that was not found once is never searched again. All answers are nevertheless those of plain
searches: the least offset at which some mark occurs, with the length of the first listed one.

## Main definitions

* `Text.occursBy`: an occurrence of a mark that ends by the end of a range.
* `Text.IsNextMark`: what the next of several marks is.
* `MarkFinder.findAll`: the answers to several searches in turn.

## Main results

* `MarkFinder.isNextMark_find_new`: a new finder finds the next mark.
* `MarkFinder.findAll_eq_map`: a finder that is asked several times answers as new ones do.
* `MarkFinder.findAll_new`: so each of its answers is the next mark.

## Implementation notes

A finder that is asked about a range that ends inside a character or behind the end of the text looks
at nothing and remembers every mark as exhausted.
-/

namespace LexPaint

namespace Text

/-- Whether the mark occurs at an offset and ends by `hi`. -/
def occursBy (t : Text) (hi pos : Nat) (m : Mark) : Bool :=
  t.hasAt pos m && pos + m.length ≤ hi

/-- What the next of several marks is, from `pos` on: the least offset at which one of them occurs and ends
by `hi`, with the length of the first listed one that does. There is none if no mark does. -/
def IsNextMark (t : Text) (marks : List Mark) (hi pos : Nat) : Option (Nat × Nat) → Prop
  | some (p, length) =>
    IsLeast {p | pos ≤ p ∧ ∃ m ∈ marks, t.occursBy hi p m = true} p ∧
      (marks.find? (t.occursBy hi p)).map List.length = some length
  | none => ∀ p, pos ≤ p → ∀ m ∈ marks, t.occursBy hi p m = false

variable {t : Text} {hi pos p : Nat} {m : Mark}

/-- A mark occurs at an offset by an end if it fits in front of the end. -/
lemma occursBy_iff : t.occursBy hi p m = true ↔ t.hasAt p m = true ∧ p + m.length ≤ hi := by
  simp [occursBy]

/-- Where no mark occurs earlier, the marks that occur are those that a search finds.

**Proof sketch.** A search finds the first occurrence that ends in the range. -/
lemma find_eq_some_iff_occursBy (hle : pos ≤ p)
    (hbefore : ∀ j, pos ≤ j → j < p → t.occursBy hi j m = false) :
    t.find m pos hi = some p ↔ t.occursBy hi p m = true := by
  rw [find_eq_some_iff, occursBy_iff]
  constructor
  · rintro ⟨-, hend, hat, -⟩
    exact ⟨hat, hend⟩
  · rintro ⟨hat, hend⟩
    refine ⟨hle, hend, hat, fun j h1 h2 => ?_⟩
    have hnone := hbefore j h1 h2
    rw [← Bool.not_eq_true, occursBy_iff] at hnone
    rw [← Bool.not_eq_true]
    exact fun hj => hnone ⟨hj, by omega⟩

end Text

namespace MarkFinder

variable {t : Text} {hi pos : Nat} {marks : List Mark}

/-! ### One search -/

/-- A hit counts if it is strictly nearer than the best one so far. -/
lemma nearer_hit (best : Option (Nat × Nat)) (m : Mark) (q : Nat) :
    (nearer best (m, .hit q) = some (q, m.length) ∧ ∀ q₀ l₀, best = some (q₀, l₀) → q < q₀) ∨
      ∃ q₀ l₀, best = some (q₀, l₀) ∧ q₀ ≤ q ∧ nearer best (m, .hit q) = best := by
  cases best with
  | none => exact .inl ⟨rfl, by simp⟩
  | some old =>
    obtain ⟨q₀, l₀⟩ := old
    by_cases hcloser : q < q₀
    · exact .inl ⟨by simp [nearer, hcloser], by simpa using hcloser⟩
    · exact .inr ⟨q₀, l₀, rfl, by omega, by simp [nearer, hcloser]⟩

/-- Of several hits the first listed of the nearest ones counts, unless the best one so far is no farther.

**Proof sketch.** Induction on the slots. Only a hit that is strictly nearer replaces the best one,
so among equally near ones the first stays. -/
lemma find?_of_nearer {slots : List (Mark × NextHit)} {best : Option (Nat × Nat)} {p length : Nat}
    (h : slots.foldl nearer best = some (p, length)) :
    best = some (p, length) ∨
      (∀ q₀ l₀, best = some (q₀, l₀) → p < q₀) ∧
        (slots.find? (fun slot => slot.2 = .hit p)).map (fun slot => slot.1.length) =
          some length := by
  induction slots generalizing best with
  | nil => exact .inl h
  | cons slot rest ih =>
    obtain ⟨m, next⟩ := slot
    rw [List.foldl_cons] at h
    cases next with
    | unknown => simpa [nearer] using ih h
    | exhausted => simpa [nearer] using ih h
    | hit q =>
      obtain ⟨hstep, hcloser⟩ | ⟨q₀, l₀, rfl, hle, hstep⟩ := nearer_hit best m q
      · right
        rw [hstep] at h
        obtain heq | ⟨hlt, hfirst⟩ := ih h
        · obtain ⟨rfl, rfl⟩ : q = p ∧ m.length = length := by simpa using heq
          exact ⟨hcloser, by simp⟩
        · have hpq : p < q := hlt q m.length rfl
          refine ⟨fun q₀ l₀ hbest => Nat.lt_trans hpq (hcloser q₀ l₀ hbest), ?_⟩
          simpa [List.find?_cons, Nat.ne_of_gt hpq] using hfirst
      · rw [hstep] at h
        obtain heq | ⟨hlt, hfirst⟩ := ih h
        · exact .inl heq
        · have hpq : p < q := Nat.lt_of_lt_of_le (hlt q₀ l₀ rfl) hle
          refine .inr ⟨hlt, ?_⟩
          simpa [List.find?_cons, Nat.ne_of_gt hpq] using hfirst

/-- **A new finder finds the next mark.**

**Proof sketch.** It searches for each mark on its own. The nearest hit is the least offset at which any
of them occurs, and the marks with a hit there are those that occur there. -/
theorem isNextMark_find_new (marks : List Mark) (hrange : t.checkRange pos hi = .ok ()) :
    t.IsNextMark marks hi pos ((new marks).find t pos hi).1 := by
  cases hfind : ((new marks).find t pos hi).1 with
  | none =>
    intro p hp m hm
    rw [← Bool.not_eq_true, Text.occursBy_iff]
    rintro ⟨hat, hend⟩
    exact Bool.false_ne_true ((find_new_eq_none hrange hfind hm hp hend).symm.trans hat)
  | some answer =>
    obtain ⟨p, length⟩ := answer
    obtain ⟨m, hm, rfl, hle, hend, hat⟩ := exists_mark_of_find_new hrange hfind
    have hbefore (j : Nat) (h1 : pos ≤ j) (h2 : j < p) (m : Mark) (hm : m ∈ marks) :
        t.occursBy hi j m = false := by
      rw [← Bool.not_eq_true, Text.occursBy_iff]
      rintro ⟨hat, hend⟩
      exact Bool.false_ne_true ((find_new_eq_some hrange hfind hm h1 h2 hend).symm.trans hat)
    refine ⟨⟨⟨hle, m, hm, Text.occursBy_iff.mpr ⟨hat, hend⟩⟩, fun j hj => ?_⟩, ?_⟩
    · obtain ⟨hj, m', hm', hoccurs⟩ := hj
      exact Nat.le_of_not_lt fun hlt =>
        Bool.false_ne_true ((hbefore j hj hlt m' hm').symm.trans hoccurs)
    · rw [find_eq (knows_new marks) hrange, marks_new] at hfind
      obtain hbest | ⟨-, hfirst⟩ := find?_of_nearer hfind
      · cases hbest
      · have hsame : marks.find? (t.occursBy hi p) =
            marks.find? ((fun slot => decide (slot.2 = .hit p)) ∘ searched t hi pos) := by
          refine List.find?_congr fun m' hm' => ?_
          rw [Bool.eq_iff_iff, Function.comp_apply, decide_eq_true_eq, hit_searched,
            Text.find_eq_some_iff_occursBy hle fun j h1 h2 => hbefore j h1 h2 m' hm']
        rw [List.find?_map, Option.map_map] at hfirst
        rw [hsame, ← hfirst]
        exact congrArg (Option.map · _) (funext fun m => congrArg List.length (fst_searched m).symm)

/-! ### Several searches in turn -/

/-- The answers to searches from several offsets in turn, all up to `hi`. -/
def findAll (finder : MarkFinder) (t : Text) (hi : Nat) : List Nat → List (Option (Nat × Nat))
  | [] => []
  | pos :: rest => (finder.find t pos hi).1 :: (finder.find t pos hi).2.findAll t hi rest

/-- **A finder that is asked several times answers as new ones do.**

**Proof sketch.** Induction on the offsets. What a search has found out is right as seen from its own
offset, and so as seen from all that follow. -/
theorem findAll_eq_map {finder : MarkFinder} {offsets : List Nat}
    (hoffsets : offsets.Pairwise (· ≤ ·)) (hrange : ∀ pos ∈ offsets, t.checkRange pos hi = .ok ())
    (h : ∀ pos ∈ offsets, ∀ slot ∈ finder.slots, Knows t hi pos slot) :
    finder.findAll t hi offsets =
      offsets.map fun pos => ((new (finder.slots.map Prod.fst)).find t pos hi).1 := by
  induction offsets generalizing finder with
  | nil => rfl
  | cons pos rest ih =>
    obtain ⟨hle, hrest⟩ := List.pairwise_cons.mp hoffsets
    obtain ⟨hpos, hranges⟩ := List.forall_mem_cons.mp hrange
    obtain ⟨hknows, -⟩ := List.forall_mem_cons.mp h
    obtain ⟨hfound, hmarks⟩ := knows_find hknows hpos
    have hstill : ∀ next ∈ rest, ∀ slot ∈ (finder.find t pos hi).2.slots, Knows t hi next slot :=
      fun next hnext slot hslot => (hfound slot hslot).mono (hle next hnext)
    have hlater := ih hrest hranges hstill
    rw [hmarks] at hlater
    rw [findAll, List.map_cons, hlater, find_eq_new hknows hpos]

/-- A search up to an offset inside a character or behind the end of the text finds nothing and leaves no
hit to remember.

**Proof sketch.** A slot without a hit is refreshed by a search of the range, which is refused, so
the slot is exhausted. -/
lemma find_eq_none_of_not_isBoundary (hhi : t.isBoundary hi = false) {finder : MarkFinder}
    (h : ∀ slot ∈ finder.slots, ∀ p, slot.2 ≠ .hit p) (pos : Nat) :
    (finder.find t pos hi).1 = none ∧
      ∀ slot ∈ (finder.find t pos hi).2.slots, ∀ p, slot.2 ≠ .hit p := by
  have hnone : ∀ slot ∈ finder.slots.map (refresh t pos hi), ∀ p, slot.2 ≠ .hit p := by
    intro slot hslot p
    obtain ⟨old, hold, rfl⟩ := List.mem_map.mp hslot
    unfold refresh
    split
    · cases hrange : t.checkRange pos hi with
      | error fault => simp
      | ok u => exact absurd (Text.isBoundary_of_checkRange hrange).2 (by simp [hhi])
    · exact h old hold p
  refine ⟨?_, hnone⟩
  cases hbest : (finder.find t pos hi).1 with
  | none => rfl
  | some answer =>
    obtain hcontra | ⟨slot, hslot, hhit, -⟩ := mem_of_nearer hbest
    · cases hcontra
    · exact absurd hhit (hnone slot hslot _)

/-- All searches up to such an offset find nothing. -/
lemma findAll_eq_none_of_not_isBoundary (hhi : t.isBoundary hi = false) {finder : MarkFinder}
    (h : ∀ slot ∈ finder.slots, ∀ p, slot.2 ≠ .hit p) (offsets : List Nat) :
    ∀ answer ∈ finder.findAll t hi offsets, answer = none := by
  induction offsets generalizing finder with
  | nil => simp [findAll]
  | cons pos rest ih =>
    obtain ⟨hfirst, hkept⟩ := find_eq_none_of_not_isBoundary hhi h pos
    rw [findAll, List.forall_mem_cons]
    exact ⟨hfirst, ih hkept⟩

/-- **What a mark finder remembers never changes an answer.** It is asked from any offsets between
characters that do not decrease and do not lie behind `hi`. Each answer is the least offset from there on
at which one of the marks occurs and ends by `hi`, with the length of the first listed mark that does, and
there is no answer just if none does. A range that ends inside a character or behind the end of the text
cannot be searched, so nothing is found in it.

**Proof sketch.** A new finder knows nothing, so nothing that is wrong. By `findAll_eq_map` each
answer is that of a new finder, which finds the next mark. In a range that cannot be searched no slot
ever gets a hit. -/
theorem findAll_new (t : Text) (marks : List Mark) {hi : Nat} {offsets : List Nat}
    (hoffsets : offsets.Pairwise (· ≤ ·))
    (hbounds : ∀ pos ∈ offsets, pos ≤ hi ∧ t.isBoundary pos = true) :
    (t.isBoundary hi = true →
      List.Forall₂ (t.IsNextMark marks hi) offsets ((new marks).findAll t hi offsets)) ∧
    (t.isBoundary hi = false → ∀ answer ∈ (new marks).findAll t hi offsets, answer = none) := by
  refine ⟨fun hhi => ?_, fun hhi => findAll_eq_none_of_not_isBoundary hhi ?_ offsets⟩
  · have hrange : ∀ pos ∈ offsets, t.checkRange pos hi = .ok () := fun pos hpos =>
      Text.checkRange_eq_ok (hbounds pos hpos).1 (hbounds pos hpos).2 hhi
    rw [findAll_eq_map hoffsets hrange fun _ _ => knows_new marks, marks_new,
      List.forall₂_map_right_iff, List.forall₂_same]
    exact fun pos hpos => isNextMark_find_new marks (hrange pos hpos)
  · intro slot hslot p
    obtain ⟨m, -, rfl⟩ := List.mem_map.mp hslot
    simp

/-- Three marks start at the same offset, and the longest of them reaches beyond the range. What is
remembered of the others goes out of date at one offset each, and the range is left at the end. -/
theorem findAll_new_ties :
    let t := Text.ofString "é//# ///"
    let marks := ["///", "é", "//", "/", "#"].map mark
    let offsets := [0, 0, 3, 4, 5, 7, 8]
    let answers := [some (0, 2), some (0, 2), some (3, 1), some (4, 1), some (6, 2), some (7, 1), none]
    offsets.Pairwise (· ≤ ·) ∧ (∀ pos ∈ offsets, pos ≤ 8 ∧ t.isBoundary pos = true) ∧
      t.isBoundary 8 = true ∧ (new marks).findAll t 8 offsets = answers ∧
      List.Forall₂ (t.IsNextMark marks 8) offsets answers := by
  intro t marks offsets answers
  have hoffsets : offsets.Pairwise (· ≤ ·) := by decide
  have hbounds : ∀ pos ∈ offsets, pos ≤ 8 ∧ t.isBoundary pos = true := by decide +kernel
  have hhi : t.isBoundary 8 = true := by decide +kernel
  have hanswers : (new marks).findAll t 8 offsets = answers := by decide +kernel
  exact ⟨hoffsets, hbounds, hhi, hanswers, hanswers ▸ (findAll_new t marks hoffsets hbounds).1 hhi⟩

end MarkFinder

end LexPaint
