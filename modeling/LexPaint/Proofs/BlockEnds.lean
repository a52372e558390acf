import LexPaint.Proofs.LiteralScans

set_option relaxedAutoImplicit false
set_option autoImplicit false

/-!
# Block comments with a common end

Documentation in the text of a program has many open marks and one close mark. Every open mark is
looked for on its own, so a block may start inside one that was mapped earlier. Then both end with
the same close mark, and containment queries still find what they look for.

## Main definitions

* `Mark.differs`: two marks that cannot stand at the same offset.
* `Mark.EndTogether`: marks whose blocks end together if they overlap.

## Main results

* `Frame.IsBlock.stop_eq_of_overlap`: overlapping blocks end together.
* `Frame.nested_addAll_blocks`: adding blocks to a set of blocks.
-/

namespace LexPaint

namespace Mark

/-- Whether two marks disagree at an offset that both have. -/
def differs (m m' : Mark) : Bool :=
  (m.zip m').any fun bytes => bytes.1 != bytes.2

/-- Whether blocks between two pairs of marks end together if they overlap: the close marks are the
same, no two of the marks can stand at the same offset, and all of them start with a byte that they
have nowhere else. -/
def endTogether (m m' : Mark × Mark) : Bool :=
  m.2 == m'.2 && m.1.differs m'.1 && m'.1.differs m.2 &&
    m.1.head?.any fun b => !m.1.tail.contains b && m'.1.head? == some b &&
      !m'.1.tail.contains b && m.2.head? == some b && !m.2.tail.contains b

/-- Where a mark stands, no mark stands that differs from it. -/
lemma not_hasAt_of_differs {t : Text} {m m' : Mark} {pos : Nat} (hd : m.differs m' = true)
    (h : t.hasAt pos m = true) : t.hasAt pos m' = false := by
  rw [Bool.eq_false_iff]
  intro h'
  obtain ⟨⟨b, b'⟩, hmem, hne⟩ := List.any_eq_true.mp hd
  obtain ⟨i, hi, hget⟩ := List.mem_iff_getElem.mp hmem
  rw [List.length_zip] at hi
  rw [List.getElem_zip, Prod.mk.injEq] at hget
  have h1 := Text.hasAt_iff.mp h i (by omega)
  have h2 := Text.hasAt_iff.mp h' i (by omega)
  rw [h1, hget.1, hget.2] at h2
  simp [Option.some.inj h2] at hne

/-- A byte that a mark only starts with stands nowhere else in it. -/
lemma byteAt_ne_of_tail {t : Text} {m : Mark} {pos i : Nat} {b : UInt8}
    (h : t.hasAt pos m = true) (hb : m.tail.contains b = false) (h1 : pos < i)
    (h2 : i < pos + m.length) : t.byteAt i ≠ some b := by
  intro hi
  have hat := Text.hasAt_iff.mp h (i - pos) (by omega)
  rw [Nat.add_sub_cancel' (Nat.le_of_lt h1), hi] at hat
  have htail : i - pos - 1 < m.tail.length := by
    rw [List.length_tail]
    omega
  have hmem : b ∈ m.tail := by
    rw [Option.some.inj hat]
    have := List.getElem_mem htail
    rw [List.getElem_tail] at this
    simpa [Nat.sub_add_cancel (show 1 ≤ i - pos by omega)] using this
  simp [hmem] at hb

/-- A mark starts with its first byte. -/
lemma byteAt_of_head {t : Text} {m : Mark} {pos : Nat} {b : UInt8} (h : t.hasAt pos m = true)
    (hb : m.head? = some b) : t.byteAt pos = some b := by
  cases m with
  | nil => cases hb
  | cons c rest =>
    have := Text.hasAt_iff.mp h 0 (by simp)
    rw [Nat.add_zero] at this
    rw [this]
    simpa using hb

end Mark

namespace Frame

variable {f : Frame} {m m' : Mark × Mark} {a b : Interval}

/-- Blocks that overlap end together.

**Proof sketch.** The later block starts in the body of the earlier one, before its close mark. No
close mark stands between the two bodies, so both bodies end at the same one. -/
theorem IsBlock.stop_eq_of_overlap (ha : f.IsBlock m.1 m.2 a) (hb : f.IsBlock m'.1 m'.2 b)
    (hm : Mark.endTogether m m' = true) (hlt : a.start < b.start) (hin : b.start < a.stop) :
    b.stop = a.stop := by
  simp only [Mark.endTogether, Bool.and_eq_true, beq_iff_eq, Option.any_eq_true,
    Bool.not_eq_true'] at hm
  obtain ⟨⟨⟨hclose, hopens⟩, hdiffer⟩, first, hfirst, ⟨⟨⟨htail, hfirst'⟩, htail'⟩, hfirstC⟩, htailC⟩ :=
    hm
  have hbyte := Mark.byteAt_of_head hb.opens hfirst'
  -- the later open mark starts with a byte that the earlier one does not go on with
  have hbody : a.start + m.1.length ≤ b.start := by
    refine Nat.le_of_not_lt fun h => ?_
    exact Mark.byteAt_ne_of_tail ha.opens htail hlt h hbyte
  rw [ha.stop_eq, hb.stop_eq, ← hclose]
  rw [ha.stop_eq] at hin
  unfold blockEnd at hin ⊢
  cases hfind : f.text.find m.2 (a.start + m.1.length) f.hi with
  | none =>
    have hnone := Text.find_eq_none_iff.mp hfind
    have : f.text.find m.2 (b.start + m'.1.length) f.hi = none :=
      Text.find_eq_none_iff.mpr fun i h1 h2 => hnone i (by omega) h2
    rw [this]
  | some i =>
    rw [hfind] at hin
    obtain ⟨h1, h2, hat, hbetween⟩ := Text.find_eq_some_iff.mp hfind
    -- so it starts in front of the close mark, and it ends there, too
    have hlt' : b.start < i := by
      rcases Nat.lt_trichotomy b.start i with h | h | h
      · exact h
      · have := Mark.not_hasAt_of_differs hdiffer hb.opens
        rw [h, hat] at this
        cases this
      · exact absurd hbyte (Mark.byteAt_ne_of_tail hat htailC h hin)
    have hle : b.start + m'.1.length ≤ i := by
      refine Nat.le_of_not_lt fun h => ?_
      exact Mark.byteAt_ne_of_tail hb.opens htail' hlt' h (Mark.byteAt_of_head hat hfirstC)
    have : f.text.find m.2 (b.start + m'.1.length) f.hi = some i :=
      Text.find_eq_some_iff.mpr ⟨hle, h2, hat, fun j h3 h4 => hbetween j (by omega) h4⟩
    rw [this]

/-- A set of blocks stays nested when blocks between other marks are added.

**Proof sketch.** Two blocks that do not overlap are in order. Two that do overlap end together, and
no two of them start together. -/
theorem nested_addAll_blocks {lo hi : Nat} {set : IntervalSet} {found : Array Interval}
    {done : List (Mark × Mark)} (hset : set.Nested) (hle : ∀ iv ∈ set.intervals, iv.start ≤ iv.stop)
    (hdone : ∀ iv ∈ set.intervals, ∃ m' ∈ done, f.IsBlock m'.1 m'.2 iv)
    (htiles : Tiles lo hi found.toList) (hfound : ∀ iv ∈ found, f.IsBlock m.1 m.2 iv)
    (hm : done.all (fun m' => Mark.endTogether m' m && Mark.endTogether m m') = true) :
    (set.addAll found).Nested := by
  have hin (y : Interval) (hy : y ∈ found) : y.start ≤ y.stop :=
    (htiles.1 y (by simpa using hy)).2.1
  simp only [List.all_eq_true, Bool.and_eq_true] at hm
  refine IntervalSet.pairwise_addAll hset.sorted hset ?_ ?_ ?_
  · exact htiles.nested.imp fun h => ⟨h.1, h⟩
  · intro x hx y hy hxy
    obtain ⟨m', hm', hblock⟩ := hdone x hx
    refine ⟨hxy, ?_⟩
    rcases Nat.lt_or_eq_of_le hxy with hlt | heq
    · by_cases hover : y.start < x.stop
      · exact Nat.le_of_eq (hblock.stop_eq_of_overlap (hfound y hy) (hm m' hm').1 hlt hover).symm
      · have := hin y hy
        omega
    · have hdiffers := (hm m' hm').1
      simp only [Mark.endTogether, Bool.and_eq_true] at hdiffers
      have := Mark.not_hasAt_of_differs hdiffers.1.1.2 hblock.opens
      rw [heq, (hfound y hy).opens] at this
      cases this
  · intro x hx y hy hyx
    obtain ⟨m', hm', hblock⟩ := hdone x hx
    refine ⟨Nat.le_of_lt hyx, ?_⟩
    by_cases hover : x.start < y.stop
    · exact Nat.le_of_eq ((hfound y hy).stop_eq_of_overlap hblock (hm m' hm').2 hyx hover).symm
    · have := hle x hx
      omega

end Frame

end LexPaint
