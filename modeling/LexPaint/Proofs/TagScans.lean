import LexPaint.Proofs.SetInvariants
import Mathlib.Data.List.Pairwise

set_option relaxedAutoImplicit false
set_option autoImplicit false

/-!
# What the scan for tags finds

A tag ends at the first angle bracket that is not quoted, and what is quoted is read from left to right:
a quote inside of an earlier value opens nothing. The scan reads values and brackets in one loop. Here
its result is described by the values alone: each of them starts at a quote outside of the earlier ones,
and the end of the tag is decided by the first bracket outside of all of them.

The sweep goes on behind each tag and behind each comment. So a bracket that it has passed starts a tag,
or it lies in a tag or in a comment.

## Main definitions

* `Text.IsValue`, `Text.IsBareBracket`, `Text.IsTagBody`: the values and the end of a tag.
* `Frame.TagsRead`: the tags that were found up to an offset.

## Main results

* `Frame.tagBody_isTagBody`: what the scan of one tag reads.
* `Frame.TagsRead.go`, `Frame.tags_read`: what one step and a sweep over a scope find.
-/

namespace LexPaint

/-! ### The values and the end of a tag -/

namespace Text

/-- The range of a scope up to `hi` that a quote opens in a tag: it goes up to the next equal quote and
over it, or to the end of the scope if there is none. -/
def IsValue (t : Text) (hi start stop : Nat) : Prop :=
  ∃ quote, isQuote quote = true ∧ t.byteAt start = some quote ∧
    ((start + 1 < stop ∧ stop ≤ hi ∧ t.byteAt (stop - 1) = some quote ∧
        ∀ i, start < i → i + 1 < stop → t.byteAt i ≠ some quote) ∨
      (stop = hi ∧ ∀ i, start < i → i < hi → t.byteAt i ≠ some quote))

/-- An angle bracket from an offset `n` on that lies outside of the values. -/
def IsBareBracket (t : Text) (hi n : Nat) (values : List Interval) (i : Nat) : Prop :=
  n ≤ i ∧ i < hi ∧ (t.byteAt i = some 0x3C ∨ t.byteAt i = some 0x3E) ∧
    ∀ value ∈ values, ¬ (value.start ≤ i ∧ i < value.stop)

/-- A bracket that opens a tag if it is read: an angle bracket, and behind it a letter, a slash, an
exclamation mark or a question mark. -/
def OpensTag (t : Text) (i : Nat) : Prop :=
  t.byteAt i = some 0x3C ∧ t.byteIs Frame.opensTag (i + 1) = true

/-- A tag of a scope up to `hi` whose name ends at `n` has these values and ends at `stop`. A value
starts wherever a quote stands outside of the earlier values. The tag ends behind the first bare bracket
if that closes the tag and in front of it otherwise, or with the scope if there is no bare bracket. -/
structure IsTagBody (t : Text) (hi n stop : Nat) (values : List Interval) : Prop where
  quoted : ∀ value ∈ values, t.IsValue hi value.start value.stop
  starts : ∀ i, (∃ value ∈ values, value.start = i) ↔ n ≤ i ∧ i < stop ∧
    t.byteIs isQuote i = true ∧ ∀ value ∈ values, value.start < i → value.stop ≤ i
  ends : (∃ i, t.IsBareBracket hi n values i ∧ (∀ j, t.IsBareBracket hi n values j → i ≤ j) ∧
      stop = if t.byteAt i = some 0x3E then i + 1 else i) ∨
    (stop = hi ∧ ∀ i, ¬ t.IsBareBracket hi n values i)

variable {t : Text} {hi n stop i : Nat} {values values' : List Interval}

/-- Only the values matter, not their order. -/
lemma IsTagBody.congr (h : t.IsTagBody hi n stop values)
    (hmem : ∀ value, value ∈ values' ↔ value ∈ values) : t.IsTagBody hi n stop values' := by
  have hbracket : t.IsBareBracket hi n values' = t.IsBareBracket hi n values := by
    funext i
    simp only [IsBareBracket, hmem]
  refine ⟨fun value hvalue => h.quoted value ((hmem value).mp hvalue), fun i => ?_, ?_⟩
  · simp only [hmem]
    exact h.starts i
  · rw [hbracket]
    exact h.ends

/-- Values start in the tag behind its name. -/
lemma IsTagBody.start_bounds {value : Interval} (h : t.IsTagBody hi n stop values)
    (hvalue : value ∈ values) : n ≤ value.start ∧ value.start < stop :=
  have hstart := (h.starts value.start).mp ⟨value, hvalue, rfl⟩
  ⟨hstart.1, hstart.2.1⟩

/-- A byte in front that is neither a quote nor an angle bracket changes nothing.

**Proof sketch.** No value and no bracket starts there. -/
lemma IsTagBody.skip (h : t.IsTagBody hi (n + 1) stop values) (hquote : t.byteIs isQuote n = false)
    (hopen : t.byteAt n ≠ some 0x3C) (hclose : t.byteAt n ≠ some 0x3E) :
    t.IsTagBody hi n stop values := by
  have hbracket : t.IsBareBracket hi n values = t.IsBareBracket hi (n + 1) values := by
    funext i
    refine propext (and_congr_left fun hi => ⟨fun hle => Nat.lt_of_le_of_ne hle ?_, Nat.le_of_succ_le⟩)
    rintro rfl
    exact hi.2.1.elim hopen hclose
  refine ⟨h.quoted, fun i => (h.starts i).trans ?_, hbracket ▸ h.ends⟩
  refine and_congr_left fun hi => ⟨Nat.le_of_succ_le, fun hle => Nat.lt_of_le_of_ne hle ?_⟩
  rintro rfl
  rw [hi.2.1] at hquote
  cases hquote

/-- A value in front of what is read behind it.

**Proof sketch.** What lies in the value is read neither as a value nor as a bracket, and what lies
behind it is read as before. -/
lemma IsTagBody.cons (value : Interval) (h : t.IsTagBody hi value.stop stop values)
    (hvalue : t.IsValue hi value.start value.stop) (hlt : value.start < value.stop)
    (hle : value.stop ≤ stop) : t.IsTagBody hi value.start stop (value :: values) := by
  have hbehind : ∀ other ∈ values, value.stop ≤ other.start :=
    fun other hother => (h.start_bounds hother).1
  have hbracket : t.IsBareBracket hi value.start (value :: values) =
      t.IsBareBracket hi value.stop values := by
    funext i
    simp only [IsBareBracket, List.forall_mem_cons]
    refine propext ⟨?_, ?_⟩
    · rintro ⟨h1, h2, h3, h4, h5⟩
      exact ⟨by omega, h2, h3, h5⟩
    · rintro ⟨h1, h2, h3, h4⟩
      exact ⟨by omega, h2, h3, by omega, h4⟩
  refine ⟨List.forall_mem_cons.mpr ⟨hvalue, h.quoted⟩, fun i => ?_, hbracket ▸ h.ends⟩
  rw [List.forall_mem_cons]
  simp only [List.mem_cons, exists_eq_or_imp, h.starts]
  constructor
  · rintro (rfl | ⟨h1, h2, h3, h4⟩)
    · obtain ⟨quote, hquote, hat, -⟩ := hvalue
      refine ⟨Nat.le_refl _, by omega, Text.byteIs_iff.mpr ⟨quote, hat, hquote⟩, by omega, ?_⟩
      intro other hother hother'
      have := hbehind other hother
      omega
    · exact ⟨by omega, h2, h3, fun _ => h1, h4⟩
  · rintro ⟨h1, h2, h3, h4, h5⟩
    rcases Nat.eq_or_lt_of_le h1 with heq | hlt'
    · exact .inl heq
    · exact .inr ⟨h4 hlt', h2, h3, h5⟩

/-- An offset between the name and the end of a tag that is an angle bracket to open another tag lies in
a value.

**Proof sketch.** Otherwise it would be a bare bracket, and the tag would end in front of it. -/
lemma IsTagBody.exists_value (h : t.IsTagBody hi n stop values) (hle : stop ≤ hi) (hn : n ≤ i)
    (hlt : i < stop) (hopen : t.byteAt i = some 0x3C) :
    ∃ value ∈ values, value.start ≤ i ∧ i < value.stop := by
  by_contra hnone
  have hbare : t.IsBareBracket hi n values i :=
    ⟨hn, by omega, .inl hopen, fun value hvalue hpos => hnone ⟨value, hvalue, hpos⟩⟩
  rcases h.ends with ⟨j, -, hfirst, hstop⟩ | ⟨-, hnobare⟩
  · have hji := hfirst i hbare
    split at hstop
    · rename_i hclose
      obtain rfl : j = i := by omega
      rw [hopen] at hclose
      cases hclose
    · omega
  · exact hnobare i hbare

/-- A quote opens a value up to where a search for the next equal quote ends.

**Proof sketch.** By cases on whether an equal quote is found. -/
lemma isValue_of_quote {quote : UInt8} (hlt : n < hi) (hat : t.byteAt n = some quote)
    (hquote : isQuote quote = true) {close : Nat}
    (hclose : close = ((t.findByte (· == quote) (n + 1) hi).map (· + 1)).getD hi) :
    n < close ∧ t.IsValue hi n close := by
  cases hj : t.findByte (· == quote) (n + 1) hi with
  | some j =>
    obtain ⟨h1, h2, h3, h4⟩ := findByte_eq_some_iff.mp hj
    obtain rfl : close = j + 1 := by rw [hclose, hj]; rfl
    refine ⟨by omega, quote, hquote, hat, .inl ⟨by omega, h2, byteIs_eq_iff.mp h3, ?_⟩⟩
    intro i hi hij hbyte
    rw [← byteIs_eq_iff, h4 i hi (by omega)] at hbyte
    cases hbyte
  | none =>
    obtain rfl : close = hi := by rw [hclose, hj]; rfl
    refine ⟨hlt, quote, hquote, hat, .inr ⟨rfl, fun i hi hihi hbyte => ?_⟩⟩
    rw [← byteIs_eq_iff, findByte_eq_none_iff.mp hj i hi hihi] at hbyte
    cases hbyte

/-- A run of bytes up to the end of a text ends in front of another byte or with the text.

**Proof sketch.** A run reaches beyond an offset if all bytes up to there belong to it. -/
lemma skipBytes_spec (p : UInt8 → Bool) (hle : n ≤ t.size) :
    (∀ i, n ≤ i → i < t.skipBytes p n t.size → t.byteIs p i = true) ∧
      t.byteIs p (t.skipBytes p n t.size) = false := by
  have hge := t.le_skipBytes p n t.size
  have hsize : t.skipBytes p n t.size ≤ t.size := by
    have := t.skipBytes_le p n t.size
    omega
  have hrun (i : Nat) (h1 : n ≤ i) (h2 : i < t.size) :=
    lt_skipBytes_iff (p := p) (Nat.le_refl t.size) h1 h2
  have hbytes (i : Nat) (h1 : n ≤ i) (h2 : i < t.skipBytes p n t.size) : t.byteIs p i = true :=
    (hrun i h1 (by omega)).mp h2 i h1 (Nat.le_refl i)
  refine ⟨hbytes, Bool.eq_false_iff.mpr fun hstop => ?_⟩
  obtain ⟨b, hb, -⟩ := byteIs_iff.mp hstop
  refine Nat.lt_irrefl _ ((hrun _ hge (lt_size_of_byteAt hb)).mpr fun j h1 h2 => ?_)
  rcases Nat.lt_or_eq_of_le h2 with hlt | rfl
  · exact hbytes j h1 hlt
  · exact hstop

end Text

namespace Frame

variable {f : Frame} {l : Layout} {t : Text} {embedded : IntervalSet} {n hi start : Nat}

/-- What the scan of a tag reads in a document without embedded sections.

**Proof sketch.** Induction on the recursion. A bracket ends the tag, a quote opens a value up to where
the scan goes on, and any other byte changes nothing. -/
theorem tagBody_isTagBody (hempty : embedded.intervals = #[]) :
    t.IsTagBody hi n (tagBody t embedded n hi).2 (valueIntervals (tagBody t embedded n hi).1) := by
  fun_induction tagBody t embedded n hi with
  | case1 n hlt hgt =>
    rw [Text.byteIs_eq_iff] at hgt
    refine ⟨by simp [valueIntervals], fun i => ⟨by simp [valueIntervals], ?_⟩, ?_⟩
    · rintro ⟨h1, h2, h3, -⟩
      obtain rfl : n = i := by dsimp only at h2; omega
      rw [Text.byteIs, hgt] at h3
      cases h3
    · exact .inl ⟨n, ⟨Nat.le_refl _, hlt, .inr hgt, by simp [valueIntervals]⟩, fun j hj => hj.1,
        by rw [if_pos hgt]⟩
  | case2 n hlt hgt hopen iv hiv ih =>
    exact absurd (IntervalSet.mem_of_intervalAt hiv).1 (by simp [hempty])
  | case3 n hlt hgt hopen hnone =>
    rw [Text.byteIs_eq_iff] at hopen
    refine ⟨by simp [valueIntervals], fun i => ⟨by simp [valueIntervals], ?_⟩, ?_⟩
    · rintro ⟨h1, h2, -⟩
      dsimp only at h2
      omega
    · exact .inl ⟨n, ⟨Nat.le_refl _, hlt, .inl hopen, by simp [valueIntervals]⟩, fun j hj => hj.1,
        by rw [hopen, if_neg (by decide)]⟩
  | case4 n hlt hgt hopen quote hq close values stop hrest ih =>
    obtain ⟨hat, hquote⟩ := Option.filter_eq_some_iff.mp hq
    obtain ⟨hlt', hvalue⟩ : n < close ∧ t.IsValue hi n close := by
      refine Text.isValue_of_quote hlt hat hquote ?_
      unfold close
      split
      · rename_i hj
        rw [hj]
        rfl
      · rename_i hnone
        rw [hnone]
        rfl
    rw [Nat.max_eq_left hlt'] at ih hrest
    obtain ⟨-, hstop, -⟩ := tagBody_bounds t embedded close hi
    rw [hrest] at ih hstop
    -- the tag ends behind the value, closed or not
    have hle : close ≤ stop := by
      obtain ⟨-, -, -, ⟨-, hclose, -⟩ | ⟨hclose, -⟩⟩ := hvalue
      all_goals
        dsimp only at hstop
        omega
    exact ih.cons ⟨n, close, .attributeValue⟩ hvalue hlt' hle
  | case5 n hlt hgt hopen hq ih =>
    rw [Text.byteIs_eq_iff] at hgt hopen
    refine ih.skip (Bool.eq_false_iff.mpr fun hquote => ?_) hopen hgt
    obtain ⟨b, hb, hquote⟩ := Text.byteIs_iff.mp hquote
    rw [hb, Option.filter_some, if_pos hquote] at hq
    cases hq
  | case6 n hge =>
    refine ⟨by simp [valueIntervals], fun i => ⟨by simp [valueIntervals], ?_⟩, ?_⟩
    · rintro ⟨h1, h2, -⟩
      dsimp only at h2
      omega
    · exact .inr ⟨rfl, fun i hi => by have := hi.1; have := hi.2.1; omega⟩

/-! ### The tag at an offset -/

/-- The bytes of the name of a tag. -/
def isTagByte (b : UInt8) : Bool :=
  isNameByte b || b == 0x21 || b == 0x3F

/-- How far behind the start of a tag its name starts: a slash is left out. -/
def tagMark (t : Text) (start : Nat) : Nat :=
  if t.byteIs (· == 0x2F) (start + 1) then 2 else 1

/-- The name of a tag starts behind its mark. -/
lemma tagAt_nameStart (f : Frame) (l : Layout) (start : Nat) :
    (f.tagAt l start).nameStart = start + tagMark f.text start := by
  unfold tagAt tagMark
  dsimp only
  split <;> rfl

/-- The name of the tag that starts at `start` ends at `n`, where the run of its bytes ends. -/
structure NameEnds (t : Text) (start n : Nat) : Prop where
  start_le : start + tagMark t start ≤ n
  bytes : ∀ i, start + tagMark t start ≤ i → i < n → t.byteIs isTagByte i = true
  ends : t.byteIs isTagByte n = false

/-- The bracket of a tag is the only one in front of the end of its name.

**Proof sketch.** An angle bracket is neither a slash nor a byte of a name. -/
lemma NameEnds.le_of_bracket {i : Nat} (h : NameEnds t start n) (hlt : start < i)
    (hopen : t.byteAt i = some 0x3C) : n ≤ i := by
  refine Nat.le_of_not_lt fun hi => ?_
  rcases Nat.lt_or_ge i (start + tagMark t start) with hmark | hmark
  · unfold tagMark at hmark
    split at hmark
    · rename_i hslash
      obtain rfl : i = start + 1 := by omega
      rw [Text.byteIs_eq_iff, hopen] at hslash
      cases hslash
    · omega
  · have hbyte := h.bytes i hmark hi
    rw [Text.byteIs, hopen] at hbyte
    cases hbyte

/-- The name of the tag at an offset ends where the run of its bytes ends. -/
lemma nameEnds_tagAt (hspans : f.Spans) (l : Layout) (hopens : f.text.OpensTag start) :
    NameEnds f.text start (f.tagAt l start).nameStop := by
  obtain ⟨b, hb, -⟩ := Text.byteIs_iff.mp hopens.2
  have hlt := Text.lt_size_of_byteAt hb
  have hmark : start + tagMark f.text start ≤ f.text.size := by
    unfold tagMark
    split <;> omega
  have hstop : (f.tagAt l start).nameStop =
      f.text.skipBytes isTagByte (start + tagMark f.text start) f.text.size := by
    rw [← tagAt_nameStart f l, ← hspans.hi_eq]
    rfl
  obtain ⟨hbytes, hends⟩ := Text.skipBytes_spec isTagByte hmark
  rw [hstop]
  exact ⟨f.text.le_skipBytes isTagByte _ _, hbytes, hends⟩

/-- What the tag at an offset is read to be in a document without embedded sections. -/
lemma tagAt_isTagBody (hempty : l.embedded.intervals = #[]) (start : Nat) :
    f.text.IsTagBody f.hi (f.tagAt l start).nameStop (f.tagAt l start).stop
      (valueIntervals (f.tagAt l start).values) :=
  tagBody_isTagBody hempty

/-! ### The sweep -/

/-- The tags that a sweep has found when it comes to an offset: each of them starts at an angle bracket
outside of comments that a mark of a tag follows, and every such bracket that was passed lies in one of
them or in a comment. -/
structure TagsRead (f : Frame) (l : Layout) (pos : Nat) (tags : Array TagFind) : Prop where
  found : ∀ tag ∈ tags, ∃ start, f.text.OpensTag start ∧
    l.blockComments.intervalAt start = none ∧ tag = f.tagAt l start
  passed : ∀ i, f.lo ≤ i → i < pos → f.text.OpensTag i →
    (∃ iv ∈ l.blockComments.intervals, iv.start ≤ i ∧ i < iv.stop) ∨
      ∃ tag ∈ tags, tag.start ≤ i ∧ i < tag.stop

namespace TagsRead

variable {pos next : Nat} {tags : Array TagFind}

/-- Going on over brackets that start no tag. -/
lemma advance (h : f.TagsRead l pos tags)
    (hpass : ∀ i, pos ≤ i → i < next → f.text.OpensTag i →
      ∃ iv ∈ l.blockComments.intervals, iv.start ≤ i ∧ i < iv.stop) : f.TagsRead l next tags := by
  refine ⟨h.found, fun i hlo hlt hopens => ?_⟩
  rcases Nat.lt_or_ge i pos with hpos | hpos
  · exact h.passed i hlo hpos hopens
  · exact .inl (hpass i hpos hlt hopens)

/-- Going on behind a tag.

**Proof sketch.** A bracket that was passed lies in front of the tag, or in it. -/
lemma push (h : f.TagsRead l start tags) (hopens : f.text.OpensTag start)
    (hout : l.blockComments.intervalAt start = none) :
    f.TagsRead l (f.tagAt l start).stop (tags.push (f.tagAt l start)) := by
  refine ⟨fun tag htag => ?_, fun i hlo hlt hi => ?_⟩
  · rcases Array.mem_push.mp htag with htag | rfl
    · exact h.found tag htag
    · exact ⟨start, hopens, hout, rfl⟩
  · rcases Nat.lt_or_ge i start with hpos | hpos
    · exact (h.passed i hlo hpos hi).imp_right fun ⟨tag, htag, hin⟩ =>
        ⟨tag, Array.mem_push_of_mem _ htag, hin⟩
    · exact .inr ⟨_, Array.mem_push_self, hpos, hlt⟩

/-- One step of the sweep: behind a comment, behind a tag, or over a bracket that no mark follows. Between
the offset and the next bracket there is nothing to pass.

**Proof sketch.** By cases on the bracket: it lies in a comment, or no mark follows, or it opens a
tag. -/
lemma go {harvest : Sweep.Harvest TagFind} {verdict : Sweep.Verdict TagFind}
    (hempty : l.embedded.intervals = #[]) (hlo : f.lo ≤ pos) (h : f.TagsRead l pos harvest.items)
    (hgo : f.tagStep l pos () = .ok (.go verdict next ())) :
    pos < next ∧ f.TagsRead l next (harvest.add verdict).items := by
  obtain ⟨-, -, hgo⟩ := bind_eq_ok.mp hgo
  split at hgo
  · cases hgo
  · rename_i start hstart
    obtain ⟨hge, hlt, hopen, hbefore⟩ := Text.findByte_eq_some_iff.mp hstart
    rw [Text.byteIs_eq_iff] at hopen
    have hstart : f.TagsRead l start harvest.items := by
      refine h.advance fun i h1 h2 hi => ?_
      have hbyte := hbefore i h1 h2
      rw [Text.byteIs, hi.1] at hbyte
      cases hbyte
    -- no section is mapped, so the bracket may only lie in a comment
    have hnone : l.embedded.intervalAt start = none :=
      Option.eq_none_iff_forall_ne_some.mpr fun iv hiv =>
        absurd (IntervalSet.mem_of_intervalAt hiv).1 (by simp [hempty])
    rw [hnone, Option.none_or] at hgo
    split at hgo
    · rename_i iv hiv
      obtain ⟨hmem, hin⟩ := IntervalSet.mem_of_intervalAt hiv
      cases hgo
      exact ⟨by omega, hstart.advance fun i h1 h2 _ => ⟨iv, hmem, by omega, by omega⟩⟩
    · rename_i hout
      split at hgo
      · rename_i hnext
        have hstop := (tagAt_fits (l := l) (by omega : f.lo ≤ start) hlt).start_lt
        cases hgo
        have hmax : max (f.tagAt l start).stop (start + 1) = (f.tagAt l start).stop :=
          Nat.max_eq_left hstop
        rw [hmax]
        exact ⟨by omega, hstart.push ⟨hopen, hnext⟩ hout⟩
      · rename_i hnext
        cases hgo
        refine ⟨by omega, hstart.advance fun i h1 h2 hi => ?_⟩
        obtain rfl : start = i := by omega
        exact absurd hi.2 hnext

/-- Where the sweep stops, no bracket is left.

**Proof sketch.** The search for the next bracket has found none. -/
lemma finish {harvest : Sweep.Harvest TagFind} (h : f.TagsRead l pos harvest.items)
    (hend : f.tagStep l pos () = .ok .stop) : f.TagsRead l f.hi harvest.items := by
  obtain ⟨-, -, hend⟩ := bind_eq_ok.mp hend
  split at hend
  · rename_i hstart
    refine h.advance fun i h1 h2 hi => ?_
    have hbyte := Text.findByte_eq_none_iff.mp hstart i h1 h2
    rw [Text.byteIs, hi.1] at hbyte
    cases hbyte
  · split at hend
    · cases hend
    · split at hend <;> cases hend

end TagsRead

/-- **What a sweep for tags finds.** In a document without embedded sections every angle bracket that a
mark of a tag follows lies in a comment or in a tag, and the tags start at such brackets outside of
comments. -/
theorem tags_read (hempty : l.embedded.intervals = #[])
    {harvest : Sweep.Harvest TagFind}
    (h : Sweep.collect (f.tagStep l) f.hi f.lo () = .ok harvest) :
    f.TagsRead l f.hi harvest.items := by
  refine Sweep.collect_induction (I := fun pos _ h => f.lo ≤ pos ∧ f.TagsRead l pos h.items)
    (Q := fun h => f.TagsRead l f.hi h.items) (fun pos _ h verdict next _ hI hgo _ => ?_)
    (fun pos _ h hI hend => hI.2.finish hend) ⟨Nat.le_refl _, ?_⟩ h
  · obtain ⟨hlt, hread⟩ := hI.2.go hempty hI.1 hgo
    exact ⟨hlt, Nat.le_trans hI.1 (Nat.le_of_lt hlt), hread⟩
  · exact ⟨Sweep.forall_mem_empty, fun i h1 h2 => absurd h1 (Nat.not_le_of_lt h2)⟩

/-- The tags that a sweep finds start at brackets outside of embedded sections.

**Proof sketch.** By what a single step accepts. -/
lemma tags_found {harvest : Sweep.Harvest TagFind}
    (h : Sweep.collect (f.tagStep l) f.hi f.lo () = .ok harvest) :
    ∀ tag ∈ harvest.items, ∃ start, f.text.OpensTag start ∧ l.embedded.intervalAt start = none ∧
      tag = f.tagAt l start := by
  refine Sweep.forall_mem_collect (J := fun _ _ => True) (fun pos _ verdict next _ _ hgo => ?_) trivial h
  refine ⟨trivial, fun tag htag => ?_⟩
  obtain ⟨-, -, hgo⟩ := bind_eq_ok.mp hgo
  split at hgo
  · cases hgo
  · rename_i start hstart
    have hopen := Text.byteIs_eq_iff.mp (Text.findByte_eq_some_iff.mp hstart).2.2.1
    split at hgo
    · cases hgo
      cases htag
    · rename_i hout
      split at hgo
      · rename_i hnext
        cases hgo
        cases htag
        exact ⟨start, ⟨hopen, hnext⟩, (Option.or_eq_none_iff.mp hout).1, rfl⟩
      · cases hgo
        cases htag

end Frame

namespace TagFind

variable {tags : List TagFind} {tag : TagFind} {set : IntervalSet} {iv : Interval}

/-- No two of the tags side by side contain one offset. -/
lemma eq_of_contains {other : TagFind} {i : Nat}
    (htiles : tags.Pairwise fun a b => a.stop ≤ b.start) (hother : other ∈ tags) (htag : tag ∈ tags)
    (hi : other.start ≤ i ∧ i < other.stop) (hi' : tag.start ≤ i ∧ i < tag.stop) : other = tag := by
  by_contra hne
  have hsymm : Std.Symm fun a b : TagFind => a.stop ≤ b.start ∨ b.stop ≤ a.start :=
    ⟨fun _ _ h => h.symm⟩
  have hapart : tags.Pairwise fun a b => a.stop ≤ b.start ∨ b.stop ≤ a.start :=
    htiles.imp fun h => .inl h
  have := hapart.forall hother htag hne
  omega

/-- The intervals that the tags are mapped to. -/
lemma mem_tags_iff (h : set.intervals.toList = tags.map fun tag => ⟨tag.start, tag.stop, .tag⟩) :
    iv ∈ set.intervals ↔ ∃ tag ∈ tags, iv = ⟨tag.start, tag.stop, .tag⟩ := by
  rw [← Array.mem_toList_iff, h, List.mem_map]
  simp only [eq_comm]

/-- The intervals that their values are mapped to. -/
lemma mem_values_iff
    (h : set.intervals.toList = tags.flatMap fun tag => Frame.valueIntervals tag.values) :
    iv ∈ set.intervals ↔ ∃ tag ∈ tags, iv ∈ Frame.valueIntervals tag.values := by
  rw [← Array.mem_toList_iff, h, List.mem_flatMap]

end TagFind

end LexPaint
