import LexPaint.Profile.Perl
import LexPaint.Proofs.BlockEnds
import LexPaint.Proofs.LocalPasses
import LexPaint.Proofs.SortFrames

set_option relaxedAutoImplicit false
set_option autoImplicit false

/-!
# How the blocks of several scans overlap

A language may have several open marks for its block comments, and each of them is scanned for on its
own. A scan does not enter a block that is there already. But it can map a block around one that is
there already, if that was opened by a mark which was scanned for earlier. So the blocks are in the
order of their starts, and two of them that overlap end together.

## Main definitions

* `Text.BlockOrder`: how two blocks of a set lie.
* `Frame.StackedBlocks`: a set of blocks after the scans for some marks.
* `Primitive.stacksBlocks`: the programs whose scans for blocks go together.

## Main results

* `Frame.StackedBlocks.scan`: one scan.
* `Primitive.runAll_stackedBlocks`: the scans of a program.
-/

namespace LexPaint

/-- How two blocks lie in a set that was filled by scans for some open marks: the second one starts
later, and it starts behind the first one or ends with it. In the second case its mark was scanned for
earlier. -/
def Text.BlockOrder (t : Text) (openers : List Mark) (a b : Interval) : Prop :=
  a.start < b.start ∧ (a.stop ≤ b.start ∨ a.stop = b.stop ∧
    ∃ inner outer, [inner, outer].Sublist openers ∧ t.hasAt b.start inner = true ∧
      t.hasAt a.start outer = true)

/-- Two blocks lie in the same way when more marks are scanned for. -/
lemma Text.BlockOrder.mono {t : Text} {openers openers' : List Mark} {a b : Interval}
    (h : t.BlockOrder openers a b) (hsub : openers.Sublist openers') : t.BlockOrder openers' a b := by
  obtain ⟨hlt, hor⟩ := h
  refine ⟨hlt, hor.imp_right ?_⟩
  rintro ⟨hstop, inner, outer, hpair, hat⟩
  exact ⟨hstop, inner, outer, hpair.trans hsub, hat⟩

/-- The last one of several intervals is added behind the others. -/
lemma IntervalSet.addAll_push (s : IntervalSet) (found : Array Interval) (iv : Interval) :
    s.addAll (found.push iv) = (s.addAll found).add iv := by
  simp [addAll]

namespace Frame

/-- The blocks of a scope after the scans for some open marks, all with one close mark. -/
structure StackedBlocks (f : Frame) (closer : Mark) (openers : List Mark) (blocks : IntervalSet) :
    Prop where
  nonempty : ∀ iv ∈ blocks.intervals, iv.start < iv.stop
  opened : ∀ iv ∈ blocks.intervals, ∃ m ∈ openers, f.IsBlock m closer iv
  ordered : blocks.intervals.toList.Pairwise (f.text.BlockOrder openers)

variable {f : Frame} {l : Layout} {condition : Condition} {opener closer : Mark}
variable {openers openers' : List Mark} {blocks blocks' : IntervalSet} {ignoreQuoted : Bool}

namespace StackedBlocks

/-- Where no blocks are, none overlap. -/
lemma of_empty (h : blocks.intervals = #[]) : f.StackedBlocks closer openers blocks := by
  refine ⟨?_, ?_, ?_⟩ <;> simp [h]

/-- The blocks after some scans are also those after more scans that find nothing. -/
lemma mono (h : f.StackedBlocks closer openers blocks) (hsub : openers.Sublist openers') :
    f.StackedBlocks closer openers' blocks where
  nonempty := h.nonempty
  opened iv hiv := by
    obtain ⟨m, hm, hblock⟩ := h.opened iv hiv
    exact ⟨m, hsub.subset hm, hblock⟩
  ordered := h.ordered.imp fun hab => hab.mono hsub

/-- Two blocks that overlap end together, so the set is nested. -/
lemma nested (h : f.StackedBlocks closer openers blocks) : blocks.Nested := by
  refine h.ordered.imp_of_mem fun {a b} _ hb hab => ?_
  have hnonempty := h.nonempty b (Array.mem_toList_iff.mp hb)
  obtain ⟨hlt, hstop | ⟨hstop, -⟩⟩ := hab <;> omega

/-- A block that starts outside of those in the set is in order with them. Those behind its start come
from earlier scans, and the block ends in front of them or with them.

**Proof sketch.** The set is sorted, so the new block is compared with the blocks on either side of
its start. Those in front of it end before it, since it starts outside of all. Of those behind it,
the ones of earlier scans end with it where they overlap it (`IsBlock.stop_eq_of_overlap`), and the
scan has passed the others. -/
lemma add {iv : Interval} (h : f.StackedBlocks closer (openers ++ [opener]) blocks)
    (hblock : f.IsBlock opener closer iv) (hnonempty : iv.start < iv.stop)
    (hfree : (blocks.inString iv.start).isSome = false)
    (hearlier : ∀ x ∈ blocks.intervals,
      (∃ m ∈ openers, f.IsBlock m closer x) ∨ x.stop ≤ iv.start)
    (hends : openers.all (fun m => Mark.endTogether (opener, closer) (m, closer)) = true) :
    f.StackedBlocks closer (openers ++ [opener]) (blocks.add iv) where
  nonempty x hx := by
    rcases IntervalSet.mem_add.mp hx with rfl | hx
    · exact hnonempty
    · exact h.nonempty x hx
  opened x hx := by
    rcases IntervalSet.mem_add.mp hx with rfl | hx
    · exact ⟨opener, by simp, hblock⟩
    · exact h.opened x hx
  ordered := by
    refine IntervalSet.pairwise_add h.nested.sorted h.ordered ?_ ?_
    · intro x hx hle
      have hout := h.nested.stop_le_of_inString hfree hx hle
      have := h.nonempty x hx
      exact ⟨by omega, .inl (by omega)⟩
    · intro x hx hlt
      refine ⟨hlt, ?_⟩
      have hx' := h.nonempty x hx
      -- a block of an earlier scan may lie in the new one, a block of this scan does not
      rcases hearlier x hx with ⟨m, hm, hblock'⟩ | hstop
      · rcases Nat.lt_or_ge x.start iv.stop with hover | hge
        · have hend := hblock.stop_eq_of_overlap hblock' (List.all_eq_true.mp hends m hm) hlt hover
          refine .inr ⟨hend.symm, m, opener, ?_, hblock'.opens, hblock.opens⟩
          exact (List.singleton_sublist.mpr hm).append (.refl [opener])
        · exact .inl hge
      · omega

end StackedBlocks

/-! ### One scan -/

/-- What one step of a scan for blocks does: it passes by a mark, or it maps a block that starts outside
of those that are there already.

**Proof sketch.** The step finds the next open mark. An open mark in a block of the set is refused,
so a block that is mapped starts outside of all of them. -/
lemma blockCommentStep_go (hf : f.WellFormed) (hopener : opener ≠ []) (hcloser : closer.IsPlain)
    {pos next : Nat} {verdict : Sweep.Verdict Interval}
    (h : f.blockCommentStep l condition opener closer ignoreQuoted pos blocks =
      .ok (.go verdict next blocks')) :
    pos < next ∧ (verdict = .refused ∧ blocks' = blocks ∨
      ∃ iv, verdict = .accepted iv ∧ blocks' = blocks.add iv ∧ f.IsBlock opener closer iv ∧
        pos ≤ iv.start ∧ iv.start < iv.stop ∧ iv.stop = next ∧
        (blocks.inString iv.start).isSome = false) := by
  have hlength : 0 < opener.length := List.length_pos_iff.mpr hopener
  obtain ⟨_, -, h⟩ := bind_eq_ok.mp h
  split at h
  · cases h
  · rename_i start hstart
    obtain ⟨hle, hfits, hat⟩ := Text.find_bounds hstart
    obtain ⟨refused, hrefused, h⟩ := bind_eq_ok.mp h
    split at h
    · cases h
      exact ⟨by omega, .inl ⟨rfl, rfl⟩⟩
    · rename_i haccepted
      obtain ⟨_, -, h⟩ := bind_eq_ok.mp h
      cases h
      have hbody := (blockEnd_bounds hf hcloser hfits).1
      have hnext : max (f.blockEnd closer (start + opener.length)) (start + opener.length) =
          f.blockEnd closer (start + opener.length) := Nat.max_eq_left hbody
      refine ⟨Nat.lt_of_lt_of_le (by omega) (Nat.le_max_right _ _),
        .inr ⟨_, rfl, rfl, ⟨hat, hfits, rfl, rfl⟩, hle, ?_, hnext.symm, ?_⟩⟩
      · show start < f.blockEnd closer (start + opener.length)
        omega
      · rw [Bool.eq_false_iff]
        intro hin
        -- the program asks for blocks around the mark first
        unfold refusesBlockComment at hrefused
        rw [if_pos (by simp [hin])] at hrefused
        cases hrefused
        exact haccepted rfl

/-- A scan for another mark adds blocks that are in order with those of the earlier scans.

**Proof sketch.** Induction along the scan. The invariant is that the state is the set with the
harvest added, that it is in order, and that its blocks come from earlier scans or end in front of
the offset. -/
theorem StackedBlocks.scan (hf : f.WellFormed) (h : f.StackedBlocks closer openers blocks)
    (hopener : opener ≠ []) (hcloser : closer.IsPlain)
    (hends : openers.all (fun m => Mark.endTogether (opener, closer) (m, closer)) = true)
    {harvest : Sweep.Harvest Interval}
    (hscan : Sweep.collect (f.blockCommentStep l condition opener closer ignoreQuoted) f.hi f.lo
      blocks = .ok harvest) :
    f.StackedBlocks closer (openers ++ [opener]) (blocks.addAll harvest.items) := by
  refine Sweep.collect_induction
    (I := fun pos blocks' harvest => blocks' = blocks.addAll harvest.items ∧
      f.StackedBlocks closer (openers ++ [opener]) blocks' ∧
      ∀ x ∈ blocks'.intervals, (∃ m ∈ openers, f.IsBlock m closer x) ∨ x.stop ≤ pos)
    (Q := fun harvest =>
      f.StackedBlocks closer (openers ++ [opener]) (blocks.addAll harvest.items))
    ?_ ?_ ⟨rfl, h.mono (List.sublist_append_left ..), fun x hx => .inl (h.opened x hx)⟩ hscan
  · rintro pos blocks' harvest verdict next blocks'' ⟨hblocks, hstacked, hpassed⟩ hgo -
    obtain ⟨hlt, ⟨rfl, rfl⟩ | ⟨iv, rfl, rfl, hblock, hge, hnonempty, rfl, hfree⟩⟩ :=
      blockCommentStep_go hf hopener hcloser hgo
    · exact ⟨hlt, hblocks, hstacked, fun x hx => (hpassed x hx).imp_right fun hx => by omega⟩
    · refine ⟨hlt, ?_, ?_, fun x hx => ?_⟩
      · rw [Sweep.Harvest.add, IntervalSet.addAll_push, hblocks]
      · exact hstacked.add hblock hnonempty hfree
          (fun x hx => (hpassed x hx).imp_right fun hx => by omega) hends
      · rcases IntervalSet.mem_add.mp hx with rfl | hx
        · exact .inr (Nat.le_refl _)
        · exact (hpassed x hx).imp_right fun hx => by omega
  · rintro pos blocks' harvest ⟨rfl, hstacked, -⟩ -
    exact hstacked

end Frame

/-! ### Programs -/

namespace Primitive

/-- The open marks of the block comments that a primitive looks for. -/
def blockOpeners : Primitive → List Mark
  | .blockComments opener _ _ => [opener]
  | _ => []

/-- Whether a primitive that runs after scans for some open marks maps no block comments, or blocks with
the same close mark that end together with those they overlap. -/
def stacksBlocks (closer : Mark) (openers : List Mark) : Primitive → Bool
  | .blockComments opener closer' _ =>
    closer' == closer && decide opener.IsPlain &&
      openers.all (fun m => Mark.endTogether (opener, closer) (m, closer))
  | .ifContains .. => false
  | _ => true

/-- Whether the scans for block comments of a program go together. -/
def stacksBlocksAll (closer : Mark) : List Mark → List Primitive → Bool
  | _, [] => true
  | openers, primitive :: rest =>
    primitive.stacksBlocks closer openers &&
      stacksBlocksAll closer (openers ++ primitive.blockOpeners) rest

variable {s : Scene} {f : Frame} {p q : Pass} {closer : Mark} {openers : List Mark}

/-- A primitive keeps the block comments in order.

**Proof sketch.** Only the scans for block comments change the set. -/
theorem run_stackedBlocks (hf : f.WellFormed) (hcloser : closer.IsPlain) {primitive : Primitive}
    (hstacks : primitive.stacksBlocks closer openers = true)
    (hp : f.StackedBlocks closer openers p.layout.blockComments)
    (h : run s primitive f p = .ok q) :
    f.StackedBlocks closer (openers ++ primitive.blockOpeners) q.layout.blockComments := by
  cases primitive with
  | blockComments opener closer' ignoreQuoted =>
    simp only [stacksBlocks, Bool.and_eq_true, beq_iff_eq, decide_eq_true_eq] at hstacks
    obtain ⟨⟨rfl, hopener⟩, hends⟩ := hstacks
    simp only [run] at h
    obtain ⟨harvest, hharvest, h⟩ := bind_eq_ok.mp h
    cases h
    exact hp.scan hf hopener.1 hcloser hends hharvest
  | ifContains needle yes no => cases hstacks
  | _ =>
    have hlookup : q.layout.sets.lookup .blockComments = p.layout.sets.lookup .blockComments :=
      run_sort _ f p q rfl h
    have hset : q.layout.blockComments = p.layout.blockComments := Option.some.inj hlookup
    rw [hset]
    exact hp.mono (List.sublist_append_left ..)

/-- **Blocks along a run.** The scans of a program keep the block comments in order, also if the rest of
it is skipped because of a repair.

**Proof sketch.** Induction on the program. Where a repair ends the run, the blocks are those of the
scans so far, and these are also in order for all the marks (`StackedBlocks.mono`). -/
theorem runAll_stackedBlocks (hf : f.WellFormed) (hcloser : closer.IsPlain)
    {program : List Primitive} (hstacks : stacksBlocksAll closer openers program = true)
    (hp : f.StackedBlocks closer openers p.layout.blockComments)
    (h : runAll s program f p = .ok q) :
    f.StackedBlocks closer (openers ++ program.flatMap blockOpeners) q.layout.blockComments := by
  induction program generalizing openers p with
  | nil =>
    simp only [runAll] at h
    cases h
    exact hp.mono (List.sublist_append_left ..)
  | cons primitive rest ih =>
    simp only [stacksBlocksAll, Bool.and_eq_true] at hstacks
    rcases eq_or_of_runAll_cons h with rfl | ⟨p₁, hp₁, h⟩
    · exact hp.mono (List.sublist_append_left ..)
    · have hstacked := ih hstacks.2 (run_stackedBlocks hf hcloser hstacks.1 hp hp₁) h
      rwa [List.append_assoc, ← List.flatMap_cons] at hstacked

end Primitive

/-- The documentation of a Perl program after any pass. -/
lemma Profile.stackedBlocks_perl {doc : Buffer} (hdoc : doc.text.Valid) {start length : Nat}
    {detect : Bool} {layout : Layout} {nested : IntervalSet} {pass : Pass}
    (hpass : perl.runPass doc start length detect layout nested = .ok pass) :
    (Frame.document doc.text .perl).StackedBlocks (mark "=cut") (podStarts.map mark)
      pass.layout.blockComments := by
  have hstacks : Primitive.stacksBlocksAll (mark "=cut") [] perl.program = true := by
    decide +kernel
  have hopeners : perl.program.flatMap Primitive.blockOpeners = podStarts.map mark := by
    decide +kernel
  unfold runPass at hpass
  have hrun := Primitive.runAll_stackedBlocks (Frame.wellFormed_document hdoc perl.dialect)
    (by decide) hstacks (.of_empty rfl) hpass
  rwa [List.nil_append, hopeners] at hrun

end LexPaint
