import LexPaint.Pass.Embedded
import LexPaint.Pass.Tag
import LexPaint.Proofs.FrameSafety
import LexPaint.Proofs.Tiles

set_option relaxedAutoImplicit false
set_option autoImplicit false

/-!
# Scans for markup

Embedded sections and tags are found by sweeps over the scope. As with literals no step asks for
anything out of range, and what one sweep maps lies side by side. The code of an embedded section
lies between boundaries, so another profile can lex it as a scope of its own.

## Main definitions

* `Text.Sealed`: no hash sign stands at an offset.
* `Text.SectionStart`: where an embedded section of markup starts.
* `Region.Fits`: an embedded section lies in the scope.

## Main results

* `Frame.regions_ensures`: the embedded sections that a sweep maps.
* `Frame.tags_ensures`: the tags of a scope.
-/

namespace LexPaint

/-- No hash sign stands at an offset. A name behind a sign may begin with a hash sign, so a range
whose end is sealed does not cut such a name off. -/
def Text.Sealed (t : Text) (pos : Nat) : Prop :=
  t.byteAt pos ≠ some 0x23

/-- No hash sign stands behind the end of a text. -/
lemma Text.sealed_size (t : Text) : t.Sealed t.size := by
  intro h
  exact Nat.lt_irrefl _ (Text.lt_size_of_byteAt h)

/-- An offset where an embedded section of markup can start: in front of `<`, or behind `>`. -/
def Text.SectionStart (t : Text) (pos : Nat) : Prop :=
  t.byteAt pos = some 0x3C ∨ ∃ i, i + 1 = pos ∧ t.byteAt i = some 0x3E

/-- The mark does not begin with a hash sign. -/
def Mark.StartsSealed (m : Mark) : Prop :=
  m.head? ≠ some 0x23

instance (m : Mark) : Decidable m.StartsSealed :=
  inferInstanceAs (Decidable (_ ≠ _))

/-- No hash sign stands where a mark occurs that does not begin with one. -/
lemma Text.sealed_of_hasAt {t : Text} {m : Mark} {pos : Nat} (hm : m.IsPlain)
    (hs : m.StartsSealed) (h : t.hasAt pos m = true) : t.Sealed pos := by
  obtain ⟨b, rest, rfl⟩ := List.exists_cons_of_ne_nil hm.1
  have hb := Text.hasAt_iff.mp h 0 (by simp)
  intro hn
  rw [Nat.add_zero, hn] at hb
  exact hs (by simpa using hb.symm)

/-- An embedded section lies in the scope, and its code lies between boundaries. -/
structure Region.Fits (f : Frame) (endTag : Mark) (r : Region) : Prop where
  tagStart_le : r.tagStart ≤ r.tagStop
  tagStop_le : r.tagStop ≤ r.codeStart
  codeStart_le : r.codeStart ≤ r.codeStop
  codeStop_le : r.codeStop ≤ f.hi
  start_ge : f.lo ≤ r.tagStart
  codeStartBoundary : f.text.isBoundary r.codeStart = true
  codeStopBoundary : f.text.isBoundary r.codeStop = true
  intervalStart : r.interval.start = r.tagStart ∨ r.interval.start = r.codeStart
  intervalBoundary : f.text.isBoundary r.interval.start = true
  intervalStopBoundary : f.text.isBoundary r.interval.stop = true
  closing : ∀ c, r.closing = some c →
    c = r.codeStop ∧ f.text.hasAt c endTag = true ∧ c + endTag.length ≤ f.hi

namespace Frame

variable {f : Frame} {l : Layout} {pos : Nat}

/-! ### Embedded sections -/

/-- An opening tag ends in the range, behind an angle bracket. -/
lemma openingTagEnd_bounds {t : Text} {i hi stop : Nat} (h : openingTagEnd t i hi = some stop) :
    i < stop ∧ stop ≤ hi ∧ t.byteAt (stop - 1) = some 0x3E := by
  fun_induction openingTagEnd t i hi with
  | case1 i hlt hc =>
    obtain rfl := Option.some.inj h
    exact ⟨by omega, by omega, Text.byteIs_eq_iff.mp hc⟩
  | case2 i hlt hc quote hq close hclose ih =>
    obtain ⟨h1, h2⟩ := ih h
    exact ⟨by omega, h2⟩
  | case3 => cases h
  | case4 i hlt hc hq ih =>
    obtain ⟨h1, h2⟩ := ih h
    exact ⟨by omega, h2⟩
  | case5 => cases h

/-- The code behind a start tag starts at a boundary of the scope.

**Proof sketch.** The code starts behind an angle bracket, or directly behind the mark. -/
lemma codeStart_bounds (hf : f.WellFormed) {element : Bool} {tagStop code : Nat}
    (hle : tagStop ≤ f.hi) (hb : f.text.isBoundary tagStop = true)
    (h : f.codeStart element tagStop = some code) :
    tagStop ≤ code ∧ code ≤ f.hi ∧ f.text.isBoundary code = true := by
  unfold codeStart at h
  split at h
  · split at h
    · split at h
      · rename_i hgt
        obtain rfl := Option.some.inj h
        exact ⟨by omega, by omega,
          Text.isBoundary_succ_of_ascii hf.valid (Text.byteIs_eq_iff.mp hgt) (by decide)⟩
      · split at h
        · obtain rfl := Option.some.inj h
          cases hopen : openingTagEnd f.text tagStop f.hi with
          | none => exact ⟨hle, Nat.le_refl _, hf.hiBoundary⟩
          | some stop =>
            obtain ⟨h1, h2, h3⟩ := openingTagEnd_bounds hopen
            have := Text.isBoundary_succ_of_ascii hf.valid h3 (by decide)
            rw [Nat.sub_add_cancel (by omega)] at this
            exact ⟨Nat.le_of_lt h1, h2, this⟩
        · cases h
    · cases h
  · obtain rfl := Option.some.inj h
    exact ⟨Nat.le_refl _, hle, hb⟩

/-- The embedded sections mapped so far lie in the scope and start at boundaries, and if `opened`
none of them starts with a hash sign. -/
structure EmbeddedFits (f : Frame) (opened : Bool) (embedded : IntervalSet) : Prop where
  fits : embedded.Fits f.lo f.hi
  boundary : ∀ iv ∈ embedded.intervals, f.text.isBoundary iv.start = true
  sealed : opened = true → ∀ iv ∈ embedded.intervals, f.text.Sealed iv.start

/-- No sections fit every scope. -/
lemma embeddedFits_empty (opened : Bool) : f.EmbeddedFits opened .empty :=
  ⟨IntervalSet.fits_empty, by simp [IntervalSet.empty], by simp [IntervalSet.empty]⟩

/-- One more section that lies in the scope. -/
lemma EmbeddedFits.add {opened : Bool} {embedded : IntervalSet} {iv : Interval}
    (h : f.EmbeddedFits opened embedded)
    (hiv : f.lo ≤ iv.start ∧ iv.start ≤ iv.stop ∧ iv.stop ≤ f.hi)
    (hb : f.text.isBoundary iv.start = true)
    (hs : opened = true → f.text.Sealed iv.start) : f.EmbeddedFits opened (embedded.add iv) := by
  refine ⟨h.fits.add hiv, fun x hx => ?_, fun ho x hx => ?_⟩
  · rcases IntervalSet.mem_add.mp hx with rfl | hx
    · exact hb
    · exact h.boundary x hx
  · rcases IntervalSet.mem_add.mp hx with rfl | hx
    · exact hs ho
    · exact h.sealed ho x hx

/-- The region behind a start tag lies in the scope. If no embedded section starts with a hash sign,
neither does what follows the code, unless the scope ends there.

**Proof sketch.** The end tag is searched for up to the next section that was mapped, or to the end
of the scope. Both are boundaries, and sealed if no section starts with a hash sign. The code ends
there or at the end tag, which is sealed as well. -/
lemma regionAt_ensures (hf : f.WellFormed) {endTag : Mark} (hend : endTag.IsPlain) (element : Bool)
    (name : String) {opened : Bool} {embedded : IntervalSet} (he : f.EmbeddedFits opened embedded)
    {tagStart tagStop code : Nat} (hlo : f.lo ≤ tagStart) (htag : tagStart ≤ tagStop)
    (htb : f.text.isBoundary tagStart = true)
    (hcode : tagStop ≤ code ∧ code ≤ f.hi ∧ f.text.isBoundary code = true) :
    Ensures (f.regionAt endTag element name embedded tagStart tagStop code) fun r =>
      r.Fits f endTag ∧ r.tagStart = tagStart ∧ r.tagStop = tagStop ∧
        r.interval.start ≤ r.interval.stop ∧ r.interval.stop ≤ f.hi ∧
        (element = false → r.interval.start = tagStart) ∧
        (opened = true → endTag.StartsSealed → f.text.Sealed f.hi → f.text.Sealed r.codeStop) := by
  obtain ⟨hc1, hc2, hcb⟩ := hcode
  -- the code is searched for its end up to the next section, or else in the whole scope
  have hlimit : ∀ limit, ((embedded.firstFrom code).map Interval.start).getD f.hi = limit →
      code ≤ limit ∧ limit ≤ f.hi ∧ f.text.isBoundary limit = true ∧
        (opened = true → f.text.Sealed f.hi → f.text.Sealed limit) := by
    rintro limit rfl
    cases hfirst : embedded.firstFrom code with
    | none => exact ⟨hc2, Nat.le_refl _, hf.hiBoundary, fun _ h => h⟩
    | some iv =>
      obtain ⟨hmem, hge, -⟩ := he.fits.sorted.firstFrom_eq_some hfirst
      have hin := he.fits.within iv hmem
      exact ⟨hge, by simp; omega, he.boundary iv hmem, fun ho _ => he.sealed ho iv hmem⟩
  unfold regionAt
  dsimp only
  generalize hl : ((embedded.firstFrom code).map Interval.start).getD f.hi = limit
  obtain ⟨hl1, hl2, hlb, hls⟩ := hlimit limit hl
  refine .bind (Text.checkRange_ensures hl1 hcb hlb) fun _ _ => .pure ?_
  cases hclose : f.text.find endTag code limit with
  | none =>
    simp only [Option.getD_none, Option.map_none]
    refine ⟨⟨htag, hc1, hl1, hl2, hlo, hcb, hlb, ?_, ?_, ?_, by simp⟩, trivial, trivial, ?_, ?_, ?_,
      fun ho _ hs => hls ho hs⟩
    · cases element <;> simp
    · cases element <;> simpa
    · cases element <;> simpa
    · cases element
      · exact Nat.le_trans htag (Nat.le_trans hc1 hl1)
      · exact hl1
    · cases element <;> exact hl2
    · rintro rfl
      rfl
  | some i =>
    obtain ⟨h1, h2, hat⟩ := Text.find_bounds hclose
    have hib := Text.isBoundary_of_hasAt hend hat
    simp only [Option.getD_some, Option.map_some]
    refine ⟨⟨htag, hc1, h1, ?_, hlo, hcb, hib, ?_, ?_, ?_, ?_⟩, trivial, trivial, ?_, ?_, ?_,
      fun _ hs _ => Text.sealed_of_hasAt hend hs hat⟩
    · exact Nat.le_trans (Nat.le_trans (Nat.le_add_right _ _) h2) hl2
    · cases element <;> simp
    · cases element <;> simpa
    · cases element
      · exact Text.isBoundary_add_length hf.valid hend hat
      · exact hib
    · intro c hc
      obtain rfl := Option.some.inj hc
      exact ⟨rfl, hat, Nat.le_trans h2 hl2⟩
    · cases element
      · show tagStart ≤ i + endTag.length
        omega
      · exact h1
    · cases element
      · exact Nat.le_trans h2 hl2
      · show i ≤ f.hi
        omega
    · rintro rfl
      rfl

/-- One more region that lies in the scope, unless it is empty. -/
lemma addRegion_fits {endTag : Mark} {opened : Bool} {embedded : IntervalSet} {r : Region}
    (he : f.EmbeddedFits opened embedded) (hr : r.Fits f endTag)
    (h1 : r.interval.start ≤ r.interval.stop) (h2 : r.interval.stop ≤ f.hi)
    (hs : opened = true → f.text.Sealed r.interval.start) :
    f.EmbeddedFits opened (addRegion embedded r) := by
  unfold addRegion
  split
  · exact he
  · refine he.add ⟨?_, h1, h2⟩ hr.intervalBoundary hs
    have h3 := hr.start_ge
    have h4 := hr.tagStart_le
    have h5 := hr.tagStop_le
    rcases hr.intervalStart with h | h <;> omega

/-- What the rest of a pass has to know about a region that a sweep has accepted. -/
structure RegionFound (f : Frame) (startTag endTag : Mark) (element opened : Bool) (r : Region) :
    Prop where
  fits : r.Fits f endTag
  ordered : r.interval.start ≤ r.interval.stop
  stop_le : r.interval.stop ≤ f.hi
  startTag_at : f.text.hasAt r.tagStart startTag = true
  tagStop_eq : r.tagStop = r.tagStart + startTag.length
  sealedStart : element = false → startTag.StartsSealed → f.text.Sealed r.interval.start
  sealedStop : opened = true → endTag.StartsSealed → f.text.Sealed f.hi → f.text.Sealed r.codeStop

/-- A step of the scan for embedded sections succeeds, goes on and maps at most the section that it
passes. **Proof sketch.** By cases on the start tag: there is none, it lies in a section or in a
comment, it has no end, or a region follows it. In each case the scan goes on at a boundary. -/
lemma regionStep_ensures (hf : f.WellFormed) {startTag endTag : Mark} (hstart : startTag.IsPlain)
    (hend : endTag.IsPlain) {element opened : Bool} (name : String) {embedded : IntervalSet}
    (hopened : opened = true → element = false ∧ startTag.StartsSealed)
    (hlo : f.lo ≤ pos) (hhi : pos ≤ f.hi) (hb : f.text.isBoundary pos = true)
    (he : f.EmbeddedFits opened embedded) :
    Ensures (f.regionStep l startTag endTag element name pos embedded)
      (Sweep.Move.Tiles 0 f.hi
        (fun pos embedded => f.text.isBoundary pos = true ∧ f.EmbeddedFits opened embedded)
        (fun r => [r.interval]) (f.RegionFound startTag endTag element opened) pos) := by
  unfold regionStep
  refine .bind (Text.checkRange_ensures hhi hb hf.hiBoundary) fun _ _ => ?_
  split
  · exact .pure trivial
  · rename_i start hfound
    obtain ⟨h1, h2, hat⟩ := Text.find_bounds hfound
    have hsb := Text.isBoundary_of_hasAt hstart hat
    have hbehind := Text.isBoundary_add_length hf.valid hstart hat
    dsimp only
    refine .ite (fun _ => .pure ⟨by omega, by omega, ⟨hbehind, he⟩, by simp⟩) fun _ => ?_
    split
    · exact .pure ⟨by omega, by omega, ⟨hbehind, he⟩, by simp⟩
    · rename_i code hcode
      have hc := codeStart_bounds hf h2 hbehind hcode
      refine .bind (regionAt_ensures hf hend element name he (by omega) (Nat.le_add_right _ _) hsb hc)
        fun r hr => ?_
      obtain ⟨hfits, ht1, ht2, hord, hstop, hint, hseal⟩ := hr
      -- a section with its marks starts with its start tag
      have hsealed : element = false → startTag.StartsSealed → f.text.Sealed r.interval.start := by
        intro hel hss
        rw [hint hel]
        exact Text.sealed_of_hasAt hstart hss hat
      have h3 := hfits.tagStart_le
      have h4 := hfits.tagStop_le
      have hge : start ≤ r.interval.start := by
        rcases hfits.intervalStart with h | h <;> omega
      refine .pure ⟨by omega, by omega, ⟨?_, ?_⟩, fun a ha => ?_⟩
      · exact Text.isBoundary_max hfits.intervalStopBoundary hbehind
      · exact addRegion_fits he hfits hord hstop fun ho =>
          hsealed (hopened ho).1 (hopened ho).2
      · cases ha
        refine ⟨.singleton (by omega) hord (by omega), hfits, hord, hstop, ?_, ?_, hsealed, hseal⟩
        · rwa [ht1]
        · rw [ht2, ht1]

/-- The embedded sections that a sweep maps lie side by side, and what was mapped before and now
lies in the scope.

**Proof sketch.** By the rule for sweeps whose finds lie side by side. Then induction on the regions,
which are added one after another. -/
theorem regions_ensures (hf : f.WellFormed) (l : Layout) {startTag endTag : Mark}
    (hstart : startTag.IsPlain) (hend : endTag.IsPlain) {element opened : Bool} (name : String)
    (hopened : opened = true → element = false ∧ startTag.StartsSealed)
    (he : f.EmbeddedFits opened l.embedded) :
    Ensures (Sweep.collect (f.regionStep l startTag endTag element name) f.hi f.lo l.embedded)
      fun h => Tiles f.lo f.hi (h.items.toList.flatMap fun r => [r.interval]) ∧
        (∀ r ∈ h.items, f.RegionFound startTag endTag element opened r) ∧
        f.EmbeddedFits opened (h.items.foldl addRegion l.embedded) := by
  refine (Sweep.collect_tiles 0
    (fun pos embedded hlo hhi hJ =>
      regionStep_ensures (l := l) hf hstart hend name hopened hlo hhi hJ.1 hJ.2)
    hf.ordered ⟨hf.loBoundary, he⟩).mono fun h hh => ?_
  obtain ⟨htiles, hfound⟩ := hh
  rw [Nat.zero_add, Nat.zero_add] at htiles
  refine ⟨htiles, hfound, ?_⟩
  rw [← Array.foldl_toList]
  have hlist : ∀ r ∈ h.items.toList, f.RegionFound startTag endTag element opened r :=
    fun r hr => hfound r (by simpa using hr)
  generalize h.items.toList = found at hlist
  generalize l.embedded = embedded at he
  induction found generalizing embedded with
  | nil => exact he
  | cons r rest ih =>
    have hr := hlist r (List.mem_cons_self ..)
    refine ih (fun r' hr' => hlist r' (List.mem_cons_of_mem _ hr')) _ ?_
    exact addRegion_fits he hr.fits hr.ordered hr.stop_le fun ho =>
      hr.sealedStart (hopened ho).1 (hopened ho).2

/-! ### Tags -/

/-- The values of a tag as intervals. -/
def valueIntervals (values : List (Nat × Nat)) : List Interval :=
  values.map fun value => ⟨value.1, value.2, .attributeValue⟩

/-- The values of a tag lie side by side between its name and its end.

**Proof sketch.** Induction along the tag. A value lies between two quotes, or between the quote and
the end of the range. -/
lemma tagBody_bounds (t : Text) (embedded : IntervalSet) (i hi : Nat) :
    (tagBody t embedded i hi).2 ≤ hi ∧
      ((tagBody t embedded i hi).2 = hi ∨ i ≤ (tagBody t embedded i hi).2) ∧
      Tiles i (tagBody t embedded i hi).2 (valueIntervals (tagBody t embedded i hi).1) := by
  fun_induction tagBody t embedded i hi with
  | case1 i hlt hgt => exact ⟨hlt, .inr (Nat.le_succ _), .nil⟩
  | case2 i hlt hgt hopen iv hiv ih =>
    exact ⟨ih.1, ih.2.1.imp_right fun _ => by omega, ih.2.2.mono (by omega) (Nat.le_refl _)⟩
  | case3 i hlt hgt hopen hnone => exact ⟨Nat.le_of_lt hlt, .inr (Nat.le_refl _), .nil⟩
  | case4 i hlt hgt hopen quote hq close values stop hrest ih =>
    rw [hrest] at ih
    obtain ⟨h1, h2, h3⟩ := ih
    have hclose : i + 1 ≤ close ∧ close ≤ hi := by
      cases hf : t.findByte (· == quote) (i + 1) hi with
      | none =>
        simp only [close, hf]
        exact ⟨hlt, Nat.le_refl _⟩
      | some j =>
        have := Text.findByte_bounds hf
        simp only [close, hf]
        show i + 1 ≤ j + 1 ∧ j + 1 ≤ hi
        omega
    have hmax : max close (i + 1) = close := by omega
    rw [hmax] at h2 h3
    have hstop : close ≤ stop := by rcases h2 with h2 | h2 <;> omega
    refine ⟨h1, .inr (by omega), ?_⟩
    -- the value at hand, and behind it the later ones
    have hhead : Tiles i close [⟨i, close, .attributeValue⟩] :=
      .singleton (Nat.le_refl _) (by dsimp only; omega) (Nat.le_refl _)
    exact hhead.append h3 (by omega) hstop
  | case5 i hlt hgt hopen hq ih =>
    exact ⟨ih.1, ih.2.1.imp_right fun _ => by omega, ih.2.2.mono (by omega) (Nat.le_refl _)⟩
  | case6 i hge => exact ⟨Nat.le_refl _, .inl rfl, .nil⟩

/-- A tag lies in the scope, and its values lie in the tag. -/
structure TagFits (f : Frame) (tag : TagFind) : Prop where
  start_ge : f.lo ≤ tag.start
  start_lt : tag.start < tag.stop
  stop_le : tag.stop ≤ f.hi
  values : Tiles tag.start tag.stop (valueIntervals tag.values)

/-- The tag behind an angle bracket lies in the scope. -/
lemma tagAt_fits {start : Nat} (hlo : f.lo ≤ start) (hlt : start < f.hi) :
    f.TagFits (f.tagAt l start) := by
  have hname : start < (f.tagAt l start).nameStart := by
    unfold tagAt
    dsimp only
    split <;> omega
  have hskip : (f.tagAt l start).nameStart ≤ (f.tagAt l start).nameStop :=
    Text.le_skipBytes f.text (fun b => isNameByte b || b == 0x21 || b == 0x3F) _ f.hi
  obtain ⟨h1, h2, h3⟩ := tagBody_bounds f.text l.embedded (f.tagAt l start).nameStop f.hi
  have hstop : start < (f.tagAt l start).stop := by
    rcases h2 with h2 | h2
    · exact Nat.lt_of_lt_of_eq hlt h2.symm
    · exact Nat.lt_of_lt_of_le (Nat.lt_of_lt_of_le hname hskip) h2
  exact ⟨hlo, hstop, h1, h3.mono (show start ≤ _ by omega) (Nat.le_refl _)⟩

/-- A step of the scan for tags succeeds, goes on and maps at most the tag that it passes. -/
lemma tagStep_ensures (hf : f.WellFormed) (hlo : f.lo ≤ pos) (hhi : pos ≤ f.hi)
    (hembedded : l.embedded.Fits f.lo f.hi) (hblocks : l.blockComments.Fits f.lo f.hi) (u : Unit) :
    Ensures (f.tagStep l pos u)
      (Sweep.Move.Tiles 0 f.hi (fun _ _ => True) (fun tag => [⟨tag.start, tag.stop, .tag⟩])
        f.TagFits pos) := by
  unfold tagStep
  refine .bind (Text.checkBytes_ensures hhi hf.hi_le) fun _ _ => ?_
  split
  · exact .pure trivial
  · rename_i start hstart
    obtain ⟨h1, h2, -⟩ := Text.findByte_bounds hstart
    split
    · rename_i skipped hskip
      have hstop : skipped.stop ≤ f.hi := by
        rcases Option.or_eq_some_iff.mp hskip with h | ⟨-, h⟩
        · exact (hembedded.within _ (IntervalSet.mem_of_intervalAt h).1).2.2
        · exact (hblocks.within _ (IntervalSet.mem_of_intervalAt h).1).2.2
      exact .pure ⟨by omega, by omega, trivial, by simp⟩
    · refine .ite (fun _ => ?_) fun _ => .pure ⟨by omega, by omega, trivial, by simp⟩
      have hfits := tagAt_fits (l := l) (by omega : f.lo ≤ start) h2
      have h3 := hfits.start_lt
      have h4 := hfits.stop_le
      refine .pure ⟨by omega, by omega, trivial, fun a ha => ?_⟩
      cases ha
      refine ⟨.singleton ?_ (Nat.le_of_lt h3) ?_, hfits⟩
      · show 0 + pos ≤ start
        omega
      · show (f.tagAt l start).stop ≤ 0 + max _ _
        omega

/-- The tags of a scope lie side by side. -/
theorem tags_ensures (hf : f.WellFormed) (hembedded : l.embedded.Fits f.lo f.hi)
    (hblocks : l.blockComments.Fits f.lo f.hi) :
    Ensures (Sweep.collect (f.tagStep l) f.hi f.lo ()) fun h =>
      Tiles f.lo f.hi (h.items.toList.flatMap fun tag => [⟨tag.start, tag.stop, .tag⟩]) ∧
        ∀ tag ∈ h.items, f.TagFits tag := by
  refine (Sweep.collect_tiles 0
    (fun pos u hlo hhi _ => tagStep_ensures hf hlo hhi hembedded hblocks u)
    hf.ordered trivial).mono fun h hh => ?_
  rwa [Nat.zero_add, Nat.zero_add] at hh

end Frame

end LexPaint
