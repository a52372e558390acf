import LexPaint.Proofs.TagScans
import LexPaint.Proofs.TokenPainting

set_option relaxedAutoImplicit false
set_option autoImplicit false

/-!
# What a tag shows

A tag shows its name, its attribute names and its values, and what lies in embedded sections stays as
it was. Whether an offset belongs to an attribute name is decided by the byte there, as long as it lies
neither in a value nor in a section: a section starts with an angle bracket or right behind one, so a
run of name bytes does not enter it.

## Main definitions

* `Text.SectionsOpened`: embedded sections that start where markup lets them start.
* `Frame.tagShade`, `TagFind.shade`: the style that a tag gives to an offset in it.

## Main results

* `Frame.any_attributeRuns`: attribute names are the name bytes outside of values and sections.
* `Frame.tagShade_congr`, `Frame.tagShade_of_newline`: what the style in a tag depends on.
* `Scene.styles_foldl_paintTag`: what shows after painting several tags.
-/

namespace LexPaint

/-- Embedded sections that queries find, and that start where sections of markup can start, apart from
one at the start of the document. -/
structure Text.SectionsOpened (t : Text) (embedded : IntervalSet) : Prop where
  nested : embedded.Nested
  starts : ∀ iv ∈ embedded.intervals, 0 < iv.start → t.SectionStart iv.start

namespace Text.SectionsOpened

variable {t : Text} {embedded : IntervalSet} {start i : Nat}

/-- Without sections there is nothing to ask. -/
lemma of_empty (h : embedded.intervals = #[]) : t.SectionsOpened embedded :=
  ⟨by rw [IntervalSet.Nested, h]; exact .nil, by simp [h]⟩

/-- Queries find the sections. -/
lemma isNone_inString_iff (h : t.SectionsOpened embedded) :
    (embedded.inString i).isNone = true ↔ ¬ embedded.Covers i := by
  rw [← IntervalSet.isSome_inString_iff h.nested]
  simp

/-- A run without angle brackets does not enter a section. -/
lemma not_covers (h : t.SectionsOpened embedded) (hfree : ¬ embedded.Covers start)
    (hle : start ≤ i) (hopen : ∀ j, start < j → j ≤ i → t.byteAt j ≠ some 0x3C)
    (hclose : ∀ j, start ≤ j → j < i → t.byteAt j ≠ some 0x3E) : ¬ embedded.Covers i := by
  rintro ⟨iv, hiv, h1, h2⟩
  rcases Nat.lt_or_ge start iv.start with hlt | hge
  · rcases h.starts iv hiv (by omega) with hat | ⟨j, hj, hat⟩
    · exact hopen _ hlt h1 hat
    · exact hclose j (by omega) (by omega) hat
  · exact hfree ⟨iv, hiv, hge, by omega⟩

end Text.SectionsOpened

/-! ### Parts of a tag -/

namespace Frame

variable {t : Text} {embedded : IntervalSet} {i hi stop pos : Nat} {values : List (Nat × Nat)}

/-- A value starts with a quote and is not empty.

**Proof sketch.** Induction along the tag. -/
lemma value_of_tagBody : ∀ value ∈ (tagBody t embedded i hi).1,
    value.1 < value.2 ∧ t.byteIs isNameByte value.1 = false := by
  fun_induction tagBody t embedded i hi with
  | case1 => simp
  | case2 i hlt hgt hopen iv hiv ih => exact ih
  | case3 => simp
  | case4 i hlt hgt hopen quote hq close values stop hrest ih =>
    obtain ⟨hat, hquote⟩ := Option.filter_eq_some_iff.mp hq
    rw [hrest] at ih
    refine List.forall_mem_cons.mpr ⟨⟨?_, ?_⟩, ih⟩
    · show i < close
      unfold close
      split
      · rename_i j hj
        exact Nat.lt_of_lt_of_le (Text.findByte_bounds hj).1 (Nat.le_succ j)
      · exact hlt
    · unfold isQuote at hquote
      simp only [Bool.or_eq_true, beq_iff_eq] at hquote
      rw [Text.byteIs, hat]
      rcases hquote with rfl | rfl <;> decide
  | case5 i hlt hgt hopen hq ih => exact ih
  | case6 => simp

/-- A byte of a name is none of the other bytes. -/
lemma byteAt_ne_of_isNameByte {b : UInt8} (h : t.byteIs isNameByte i = true)
    (hb : isNameByte b = false) : t.byteAt i ≠ some b := by
  intro hat
  rw [Text.byteIs, hat] at h
  exact Bool.false_ne_true (hb.symm.trans h)

/-- Values lie behind the name. -/
lemma le_of_valueTiles (h : Tiles i stop (valueIntervals values)) :
    ∀ value ∈ values, i ≤ value.1 :=
  fun _ hvalue => (h.1 _ (List.mem_map_of_mem hvalue)).1

/-- A run of name bytes ends before the values behind its start. -/
lemma skipBytes_le_values (hsize : stop ≤ t.size) (hlt : i < stop)
    (htiles : Tiles i stop (valueIntervals values))
    (hvalues : ∀ value ∈ values, value.1 < value.2 ∧ t.byteIs isNameByte value.1 = false) :
    ∀ value ∈ values, t.skipBytes isNameByte i stop ≤ value.1 := by
  intro value hvalue
  have hle := le_of_valueTiles htiles value hvalue
  have hstop := Text.skipBytes_le t isNameByte i stop
  refine Nat.le_of_not_lt fun hinside => ?_
  have hname := (Text.lt_skipBytes_iff hsize hle (by omega)).mp hinside _ hle (Nat.le_refl _)
  rw [(hvalues value hvalue).2] at hname
  cases hname

/-- The attribute names of a tag are its name bytes outside of values and of embedded sections.

**Proof sketch.** Induction on the recursion. A run of name bytes ends before the next value, because a
value starts with a quote, and it does not enter a section. -/
theorem any_attributeRuns (hsize : stop ≤ t.size) (hsections : t.SectionsOpened embedded)
    (htiles : Tiles i stop (valueIntervals values))
    (hvalues : ∀ value ∈ values, value.1 < value.2 ∧ t.byteIs isNameByte value.1 = false) :
    (attributeRuns t embedded i stop values).any (fun run => run.1 ≤ pos && pos < run.2) = true ↔
      i ≤ pos ∧ pos < stop ∧ t.byteIs isNameByte pos = true ∧ ¬ embedded.Covers pos ∧
        ∀ value ∈ values, ¬ (value.1 ≤ pos ∧ pos < value.2) := by
  fun_induction attributeRuns t embedded i stop values with
  | case1 i values hlt value hhead ih =>
    obtain ⟨hhead, hi⟩ := Option.filter_eq_some_iff.mp hhead
    obtain ⟨rest, rfl⟩ := List.head?_eq_some_iff.mp hhead
    obtain rfl : value.1 = i := by simpa using hi
    have hvalue := (hvalues value (List.mem_cons_self ..)).1
    have hrest : Tiles (max value.2 (value.1 + 1)) stop (valueIntervals rest) := by
      rw [Nat.max_eq_left hvalue]
      exact htiles.tail
    refine (ih hrest fun v hv => hvalues v (List.mem_cons_of_mem _ hv)).trans ?_
    rw [List.tail_cons, List.forall_mem_cons]
    constructor
    · rintro ⟨h1, h2, h3, h4, h5⟩
      exact ⟨by omega, h2, h3, h4, by omega, h5⟩
    · rintro ⟨h1, h2, h3, h4, h5, h6⟩
      exact ⟨by omega, h2, h3, h4, h6⟩
  | case2 i values hlt hhead hname runStop ih =>
    rw [Bool.and_eq_true, hsections.isNone_inString_iff] at hname
    have hrun (j : Nat) (h1 : i ≤ j) (h2 : j < stop) := Text.lt_skipBytes_iff hsize h1 h2
      (p := isNameByte)
    have hnext : i + 1 ≤ runStop := by
      refine (hrun i (Nat.le_refl _) hlt).mpr fun j h1 h2 => ?_
      rw [Nat.le_antisymm h2 h1]
      exact hname.1
    have hle : runStop ≤ stop := by
      have := Text.skipBytes_le t isNameByte i stop
      omega
    -- a run does not reach the next value, which starts with a quote
    have hbehind := skipBytes_le_values hsize hlt htiles hvalues
    have hrest : Tiles (max runStop (i + 1)) stop (valueIntervals values) := by
      rw [Nat.max_eq_left hnext]
      refine htiles.raise fun iv hiv => ?_
      obtain ⟨value, hvalue, rfl⟩ := List.mem_map.mp hiv
      exact hbehind value hvalue
    rw [List.any_cons, Bool.or_eq_true]
    refine (or_congr Iff.rfl (ih hrest hvalues)).trans ?_
    simp only [Bool.and_eq_true, decide_eq_true_eq]
    constructor
    · rintro (⟨h1, h2⟩ | ⟨h1, h2⟩)
      · have hbytes := (hrun pos h1 (by omega)).mp h2
        refine ⟨h1, by omega, hbytes pos h1 (Nat.le_refl _), ?_, fun value hvalue hpos => ?_⟩
        · -- no section starts in the run, because its marks have bytes that are not in names
          refine hsections.not_covers hname.2 h1 (fun j hj hj' => ?_) fun j hj hj' => ?_
          · exact byteAt_ne_of_isNameByte (hbytes j (by omega) hj') (by decide)
          · exact byteAt_ne_of_isNameByte (hbytes j hj (by omega)) (by decide)
        · have := hbehind value hvalue
          omega
      · exact ⟨by omega, h2⟩
    · rintro ⟨h1, h2⟩
      rcases Nat.lt_or_ge pos runStop with hlt' | hge
      · exact .inl ⟨h1, hlt'⟩
      · exact .inr ⟨by omega, h2⟩
  | case3 i values hlt hhead hname ih =>
    rw [Bool.and_eq_true, hsections.isNone_inString_iff] at hname
    have hrest : Tiles (i + 1) stop (valueIntervals values) := by
      cases values with
      | nil => exact .nil
      | cons head rest =>
        have hne : head.1 ≠ i := by simpa [Option.filter] using hhead
        have hlt := (hvalues head (List.mem_cons_self ..)).1
        have hgt : i < head.1 :=
          Nat.lt_of_le_of_ne (le_of_valueTiles htiles head (List.mem_cons_self ..)) hne.symm
        refine htiles.raise fun iv hiv => ?_
        rcases List.mem_cons.mp hiv with rfl | hiv
        · exact hgt
        · exact Nat.le_trans (Nat.le_trans hgt (Nat.le_of_lt hlt)) (htiles.tail.1 iv hiv).1
    refine (ih hrest hvalues).trans ?_
    constructor
    · rintro ⟨h1, h2⟩
      exact ⟨by omega, h2⟩
    · rintro ⟨h1, h2, h3, h4, h5⟩
      exact ⟨Nat.lt_of_le_of_ne h1 fun heq => hname (heq ▸ ⟨h3, h4⟩), h2, h3, h4, h5⟩
  | case4 i values hge => simp; omega

/-! ### The style of an offset in a tag -/

/-- Whether an offset lies in the name of the tag that starts at another one. -/
def inTagName (t : Text) (start i : Nat) : Bool :=
  start + tagMark t start ≤ i && i < t.skipBytes isTagByte (start + tagMark t start) t.size

/-- The style that a tag gives to an offset in it outside of values and of embedded sections. -/
def tagShade (t : Text) (start i : Nat) (base : Option Style) : Option Style :=
  if inTagName t start i then some .tagName
  else if t.byteIs isNameByte i then some .attributeName
  else base

section TagNames

variable {t₀ : Text} {start start₀ n j : Nat}

/-- The name of a tag starts behind its bracket. -/
lemma tagMark_pos (t : Text) (start : Nat) : 0 < tagMark t start := by
  unfold tagMark
  split <;> decide

/-- An offset lies in the name of a tag if all bytes up to there are bytes of tag names. -/
lemma inTagName_iff (hi : start + n < t.size) :
    inTagName t start (start + n) = true ↔ tagMark t start ≤ n ∧
      ∀ k, tagMark t start ≤ k → k ≤ n → t.byteIs isTagByte (start + k) = true := by
  unfold inTagName
  rw [Bool.and_eq_true, decide_eq_true_eq, decide_eq_true_eq, Nat.add_le_add_iff_left]
  refine and_congr_right fun hle => ?_
  rw [Text.lt_skipBytes_iff (Nat.le_refl _) (Nat.add_le_add_left hle start) hi]
  constructor
  · exact fun h k h1 h2 => h (start + k) (by omega) (by omega)
  · intro h j h1 h2
    have := h (j - start) (by omega) (by omega)
    rwa [Nat.add_sub_cancel' (by omega)] at this

/-- What lies in a tag is decided by the bytes from its start on.

**Proof sketch.** Whether an offset lies in the name is decided by the bytes up to there. -/
lemma tagShade_congr (hi : start + n < t.size) (hi₀ : start₀ + n < t₀.size)
    (hbytes : ∀ k, k ≤ n → t.byteAt (start + k) = t₀.byteAt (start₀ + k)) (base : Option Style) :
    tagShade t start (start + n) base = tagShade t₀ start₀ (start₀ + n) base := by
  have hname : inTagName t start (start + n) = inTagName t₀ start₀ (start₀ + n) := by
    rcases Nat.eq_zero_or_pos n with rfl | hpos
    · have h1 := tagMark_pos t start
      have h2 := tagMark_pos t₀ start₀
      rw [Bool.eq_iff_iff, inTagName_iff hi, inTagName_iff hi₀]
      exact iff_of_false (fun h => by omega) fun h => by omega
    · have hmark : tagMark t start = tagMark t₀ start₀ := by
        unfold tagMark
        rw [Text.byteIs_congr (hbytes 1 hpos)]
      rw [Bool.eq_iff_iff, inTagName_iff hi, inTagName_iff hi₀, hmark]
      refine and_congr_right fun _ => forall_congr' fun k => forall_congr' fun _ =>
        forall_congr' fun hk => ?_
      rw [Text.byteIs_congr (hbytes k hk)]
  unfold tagShade
  rw [hname, Text.byteIs_congr (hbytes n (Nat.le_refl n))]

/-- The name of a tag lies on the line on which the tag starts.

**Proof sketch.** A newline is no byte of a tag name. -/
lemma tagShade_of_newline (hi : i < t.size) (hlt : start < j) (hle : j ≤ i)
    (hline : t.byteAt j = some newline) (base : Option Style) :
    tagShade t start i base = if t.byteIs isNameByte i then some .attributeName else base := by
  have hnot (p : UInt8 → Bool) (hp : p newline = false) : t.byteIs p j = false := by
    simp [Text.byteIs, hline, hp]
  have hname : inTagName t start i = false := by
    obtain ⟨n, rfl⟩ := Nat.exists_eq_add_of_le (show start ≤ i by omega)
    rw [Bool.eq_false_iff, ne_eq, inTagName_iff hi]
    rintro ⟨-, hall⟩
    rcases Nat.lt_or_ge j (start + tagMark t start) with hmark | hmark
    · unfold tagMark at hmark
      split at hmark
      · rename_i hslash
        rw [show start + 1 = j by omega, hnot _ (by decide)] at hslash
        cases hslash
      · omega
    · have := hall (j - start) (by omega) (by omega)
      rw [Nat.add_sub_cancel' (by omega), hnot _ (by decide)] at this
      cases this
  unfold tagShade
  rw [hname, if_neg Bool.false_ne_true]

end TagNames

end Frame

/-- The style that a tag gives to an offset, if `base` shows there without it. Embedded sections stay as
they are. -/
def TagFind.shade (t : Text) (embedded : IntervalSet) (tag : TagFind) (i : Nat)
    (base : Option Style) : Option Style :=
  if embedded.Covers i then base
  else if covers (Frame.valueIntervals tag.values) (fun _ => true) i then some .attributeValue
  else if tag.start ≤ i ∧ i < tag.stop then Frame.tagShade t tag.start i base
  else base

namespace Frame

variable {f : Frame} {l : Layout} {i start : Nat}

/-- Neither the bracket of a tag nor a slash behind it is a name byte.

**Proof sketch.** There are at most two such bytes. -/
lemma byteIs_before_tagName {t : Text} (hopens : t.OpensTag start) (hle : start ≤ i)
    (hlt : i < start + tagMark t start) : t.byteIs isNameByte i = false := by
  unfold tagMark at hlt
  rcases Nat.lt_or_eq_of_le hle with hlt' | rfl
  · split at hlt
    · rename_i hslash
      obtain rfl : i = start + 1 := by omega
      rw [Text.byteIs, Text.byteIs_eq_iff.mp hslash]
      decide
    · omega
  · rw [Text.byteIs, hopens.1]
    decide

/-- The name of a tag lies in the tag.

**Proof sketch.** A tag ends behind its name or with the scope, and the name lies in the scope. -/
lemma nameStop_le_tagStop (hspans : f.Spans) (hopens : f.text.OpensTag start) (l : Layout) :
    (f.tagAt l start).nameStop ≤ (f.tagAt l start).stop := by
  have hcases : (f.tagAt l start).stop = f.hi ∨
      (f.tagAt l start).nameStop ≤ (f.tagAt l start).stop :=
    (tagBody_bounds f.text l.embedded (f.tagAt l start).nameStop f.hi).2.1
  have hskip : (f.tagAt l start).nameStop ≤ max (f.tagAt l start).nameStart f.hi :=
    f.text.skipBytes_le isTagByte (f.tagAt l start).nameStart f.hi
  obtain ⟨b, hb, -⟩ := Text.byteIs_iff.mp hopens.2
  have hlt := hspans.hi_eq ▸ Text.lt_size_of_byteAt hb
  have hmark : start + tagMark f.text start ≤ f.hi := by
    unfold tagMark
    split
    · exact hlt
    · exact Nat.le_of_lt hlt
  rw [f.tagAt_nameStart l start] at hskip
  omega

/-- The name of a tag does not enter an embedded section.

**Proof sketch.** A section starts at an angle bracket or behind one, and neither is a byte of a tag
name. -/
lemma not_covers_tagName (hspans : f.Spans) (hsections : f.text.SectionsOpened l.embedded)
    (hopens : f.text.OpensTag start) (hfree : ¬ l.embedded.Covers start) (hle : start ≤ i)
    (hlt : i < (f.tagAt l start).nameStop) : ¬ l.embedded.Covers i := by
  have hname := nameEnds_tagAt hspans l hopens
  have hclear {b : UInt8} (hslash : b ≠ 0x2F) (hb : isTagByte b = false) (j : Nat) (h1 : start < j)
      (h2 : j ≤ i) : f.text.byteAt j ≠ some b := by
    intro hat
    rcases Nat.lt_or_ge j (start + tagMark f.text start) with hmark | hmark
    · unfold tagMark at hmark
      split at hmark
      · rename_i hbyte
        obtain rfl : j = start + 1 := by omega
        rw [Text.byteIs_eq_iff, hat] at hbyte
        exact hslash (Option.some.inj hbyte)
      · omega
    · have hbyte := hname.bytes j hmark (by omega)
      rw [Text.byteIs, hat] at hbyte
      exact Bool.false_ne_true (hb.symm.trans hbyte)
  refine hsections.not_covers hfree hle (hclear (by decide) rfl) fun j h1 h2 hat => ?_
  rcases Nat.lt_or_eq_of_le h1 with hlt' | rfl
  · exact hclear (by decide) rfl j hlt' (by omega) hat
  · rw [hopens.1] at hat
    cases hat

/-- What a tag gives to an offset outside of its values and of embedded sections is decided by its name
and its attributes, and a section shows neither.

**Proof sketch.** By cases on where the offset lies: in the tag or not, in its name or behind it. The
attribute names are the name bytes outside of values and sections, which are not in front of the
name. -/
lemma tagShade_eq (hspans : f.Spans) (hsections : f.text.SectionsOpened l.embedded)
    (hopens : f.text.OpensTag start) (hfree : ¬ l.embedded.Covers start) (base : Option Style)
    (hvalue : ¬ l.embedded.Covers i →
      ∀ value ∈ (f.tagAt l start).values, ¬ (value.1 ≤ i ∧ i < value.2)) :
    (if l.embedded.Covers i then base
      else if start ≤ i ∧ i < (f.tagAt l start).stop then tagShade f.text start i base else base) =
      if (f.tagAt l start).attributes.any (fun run => run.1 ≤ i && i < run.2) then
        some .attributeName
      else if (f.tagAt l start).nameStart ≤ i ∧ i < (f.tagAt l start).nameStop then some .tagName
      else base := by
  have hhi := hspans.hi_eq
  obtain ⟨hle, -, htiles⟩ := tagBody_bounds f.text l.embedded (f.tagAt l start).nameStop f.hi
  have hruns : (f.tagAt l start).attributes.any (fun run => run.1 ≤ i && i < run.2) = true ↔
      (f.tagAt l start).nameStop ≤ i ∧ i < (f.tagAt l start).stop ∧
        f.text.byteIs isNameByte i = true ∧ ¬ l.embedded.Covers i ∧
          ∀ value ∈ (f.tagAt l start).values, ¬ (value.1 ≤ i ∧ i < value.2) :=
    any_attributeRuns (Nat.le_trans hle (Nat.le_of_eq hhi)) hsections htiles value_of_tagBody
  have hnameStart := f.tagAt_nameStart l start
  have hnameStop : (f.tagAt l start).nameStop =
      f.text.skipBytes isTagByte (f.tagAt l start).nameStart f.hi := rfl
  have hname : inTagName f.text start i = true ↔
      (f.tagAt l start).nameStart ≤ i ∧ i < (f.tagAt l start).nameStop := by
    unfold inTagName
    rw [Bool.and_eq_true, decide_eq_true_eq, decide_eq_true_eq, hnameStop, hnameStart, hhi]
  have hskip := f.text.le_skipBytes isTagByte (f.tagAt l start).nameStart f.hi
  have hmark := tagMark_pos f.text start
  have hstop := nameStop_le_tagStop hspans hopens l
  by_cases hcovers : l.embedded.Covers i
  · -- a section does not reach into the name of a tag
    have hout : ¬ ((f.tagAt l start).nameStart ≤ i ∧ i < (f.tagAt l start).nameStop) := fun h =>
      not_covers_tagName hspans hsections hopens hfree (by omega) h.2 hcovers
    rw [if_pos hcovers, if_neg fun h => (hruns.mp h).2.2.2.1 hcovers, if_neg hout]
  rw [if_neg hcovers]
  unfold tagShade
  simp only [hruns, hname]
  by_cases hin : start ≤ i ∧ i < (f.tagAt l start).stop
  · rw [if_pos hin]
    by_cases hn : (f.tagAt l start).nameStart ≤ i ∧ i < (f.tagAt l start).nameStop
    · rw [if_pos hn, if_neg (by omega), if_pos hn]
    · rw [if_neg hn, if_neg hn]
      by_cases hb : f.text.byteIs isNameByte i = true
      · refine (if_pos hb).trans (if_pos ⟨?_, hin.2, hb, hcovers, hvalue hcovers⟩).symm
        refine Nat.le_of_not_lt fun hlt' => hn ⟨Nat.le_of_not_lt fun hlt'' => ?_, hlt'⟩
        rw [byteIs_before_tagName hopens hin.1 (hnameStart ▸ hlt'')] at hb
        cases hb
      · rw [if_neg hb, if_neg fun h => hb h.2.2.1]
  · rw [if_neg hin, if_neg (by omega), if_neg (by omega)]

end Frame

/-! ### Painting tags -/

namespace Scene

variable {t : Text} {c : Buffer} {start stop i : Nat} {style : Style}

/-- Painting between intervals leaves those as they are.

**Proof sketch.** Induction on the intervals. What lies in front of the first one lies in none. -/
lemma styles_paintBetween (hc : c.text = t) (hi : i < t.size) {gaps : List Interval}
    (hsorted : gaps.Pairwise fun a b => a.start ≤ b.start) (hgaps : ∀ iv ∈ gaps, iv.start < stop)
    {first : Nat} {painted : Buffer × Nat}
    (hpainted : gaps.foldl (fun (canvas, first) iv =>
      ((document t).paint canvas first (max iv.start first) style, max first iv.stop)) (c, first) =
        painted) :
    ((document t).paint painted.1 painted.2 stop style).styles[i]? =
      if first ≤ i ∧ i < stop ∧ ∀ iv ∈ gaps, ¬ (iv.start ≤ i ∧ i < iv.stop) then some style
      else c.styles[i]? := by
  induction gaps generalizing c first with
  | nil =>
    subst hpainted
    simp [styles_document_paint hc, hi]
  | cons iv rest ih =>
    obtain ⟨hhead, hrest⟩ := List.pairwise_cons.mp hsorted
    have hlt := hgaps iv (List.mem_cons_self ..)
    -- what lies in front of the first interval lies in no later one
    have hbefore : i < iv.start → ∀ x ∈ rest, ¬ (x.start ≤ i ∧ i < x.stop) := by
      intro hlt x hx hpos
      have := hhead x hx
      omega
    rw [ih ((text_paint ..).trans hc) hrest (fun x hx => hgaps x (List.mem_cons_of_mem _ hx)) hpainted,
      styles_document_paint hc]
    simp only [List.forall_mem_cons]
    by_cases hin : iv.start ≤ i ∧ i < iv.stop
    · rw [if_neg (by omega), if_neg (by omega), if_neg fun h => h.2.2.1 hin]
    · by_cases hfront : i < iv.start
      · have hall := hbefore hfront
        by_cases hfirst : first ≤ i
        · rw [if_pos (show first ≤ i ∧ i < stop ∧ _ from ⟨hfirst, by omega, hin, hall⟩)]
          split
          · rfl
          · exact if_pos ⟨hfirst, by omega, hi⟩
        · rw [if_neg (by omega), if_neg (by omega), if_neg (by omega)]
      · have hmax : max first iv.stop ≤ i ↔ first ≤ i := by omega
        simp only [hmax, hin, not_false_iff, true_and]
        split
        · rfl
        · exact if_neg (by omega)

/-- Painting outside of embedded sections leaves these as they are.

**Proof sketch.** Sections that the range does not reach are left out, which changes nothing in the
range. -/
lemma styles_paintOutside (hc : c.text = t) (hi : i < t.size) {embedded : IntervalSet}
    (hsorted : embedded.Sorted) :
    ((document t).paintOutside c embedded start stop style).styles[i]? =
      if embedded.Covers i then c.styles[i]?
      else if start ≤ i ∧ i < stop then some style else c.styles[i]? := by
  have hbefore : ∀ iv ∈ embedded.intervals.toList.filter
      fun iv => start < iv.stop && iv.start < stop, iv.start < stop := by
    intro iv hiv
    have := (List.mem_filter.mp hiv).2
    simp only [Bool.and_eq_true, decide_eq_true_eq] at this
    exact this.2
  unfold paintOutside
  refine Eq.trans (styles_paintBetween hc hi (hsorted.sublist List.filter_sublist) hbefore rfl) ?_
  have hgaps : (start ≤ i ∧ i < stop ∧ ∀ iv ∈ embedded.intervals.toList.filter
      (fun iv => start < iv.stop && iv.start < stop), ¬ (iv.start ≤ i ∧ i < iv.stop)) ↔
        ¬ embedded.Covers i ∧ start ≤ i ∧ i < stop := by
    simp only [List.mem_filter, Array.mem_toList_iff, Bool.and_eq_true, decide_eq_true_eq,
      IntervalSet.Covers]
    constructor
    · rintro ⟨h1, h2, h3⟩
      refine ⟨?_, h1, h2⟩
      rintro ⟨iv, hiv, hpos⟩
      exact h3 iv ⟨hiv, by omega, by omega⟩ hpos
    · rintro ⟨h1, h2, h3⟩
      exact ⟨h2, h3, fun iv hiv hpos => h1 ⟨iv, hiv.1, hpos⟩⟩
  rw [if_congr hgaps rfl rfl]
  by_cases hcovers : embedded.Covers i
  · rw [if_pos hcovers, if_neg fun h => h.1 hcovers]
  · rw [if_neg hcovers]
    simp only [hcovers, not_false_iff, true_and]

/-- Painting several ranges outside of embedded sections.

**Proof sketch.** Induction on the ranges. -/
lemma styles_foldl_paintOutside (hc : c.text = t) (hi : i < t.size) {embedded : IntervalSet}
    (hsorted : embedded.Sorted) (ranges : List (Nat × Nat)) :
    (ranges.foldl (fun canvas range =>
      (document t).paintOutside canvas embedded range.1 range.2 style) c).styles[i]? =
      if embedded.Covers i then c.styles[i]?
      else if ranges.any (fun range => range.1 ≤ i && i < range.2) then some style
      else c.styles[i]? := by
  induction ranges generalizing c with
  | nil => simp
  | cons range rest ih =>
    rw [List.foldl_cons, ih ((Pass.text_paintOutside ..).trans hc), styles_paintOutside hc hi hsorted]
    by_cases hcovers : embedded.Covers i
    · rw [if_pos hcovers, if_pos hcovers, if_pos hcovers]
    · rw [if_neg hcovers, if_neg hcovers, if_neg hcovers, List.any_cons]
      cases rest.any fun range => range.1 ≤ i && i < range.2 with
      | true => simp
      | false => simp

variable {f : Frame} {l : Layout} {tags : List TagFind} {base : Option Style}

/-- What shows after painting a tag.

**Proof sketch.** The name is painted first, then the attribute names, then the values, so what comes
later shows. -/
lemma styles_paintTag (hspans : f.Spans) (hsections : f.text.SectionsOpened l.embedded)
    (hopens : f.text.OpensTag start) (hfree : ¬ l.embedded.Covers start) (hc : c.text = f.text)
    (hi : i < f.text.size) :
    (Pass.paintTag (document f.text) l.embedded c (f.tagAt l start)).styles[i]? =
      (f.tagAt l start).shade f.text l.embedded i c.styles[i]? := by
  have hcovers : covers (Frame.valueIntervals (f.tagAt l start).values) (fun _ => true) i =
      (f.tagAt l start).values.any fun value => value.1 ≤ i && i < value.2 := by
    simp [covers, Frame.valueIntervals, Interval.contains, List.any_map, Function.comp_def]
  have hc' : ((document f.text).paint c (f.tagAt l start).nameStart (f.tagAt l start).nameStop
      .tagName).text = f.text := (text_paint ..).trans hc
  have hshade := Frame.tagShade_eq (i := i) hspans hsections hopens hfree c.styles[i]?
  unfold Pass.paintTag TagFind.shade
  rw [hcovers, styles_foldl_paintOutside
    ((text_foldl (fun _ _ => text_paint _ _ _ _ _) _ _).trans hc') hi hsections.nested.sorted,
    styles_foldl_paint (fun run => run) hc' _ _ hi, styles_document_paint hc]
  simp only [hi, and_true]
  by_cases hin : l.embedded.Covers i
  · rw [if_pos hin] at hshade ⊢
    rw [if_pos hin]
    exact (hshade fun h => absurd hin h).symm
  · rw [if_neg hin] at hshade ⊢
    rw [if_neg hin]
    by_cases hvalue : (f.tagAt l start).values.any (fun value => value.1 ≤ i && i < value.2) = true
    · rw [if_pos hvalue, if_pos hvalue]
    · rw [if_neg hvalue, if_neg hvalue]
      exact (hshade fun _ => by simpa using hvalue).symm

/-- What shows after painting several tags: each of them gives its style to what showed before. -/
lemma styles_foldl_paintTag (hspans : f.Spans) (hsections : f.text.SectionsOpened l.embedded)
    (htags : ∀ tag ∈ tags, ∃ start, f.text.OpensTag start ∧ ¬ l.embedded.Covers start ∧
      tag = f.tagAt l start) (hc : c.text = f.text) (hi : i < f.text.size) :
    (tags.foldl (Pass.paintTag (document f.text) l.embedded) c).styles[i]? =
      tags.foldl (fun base tag => tag.shade f.text l.embedded i base) c.styles[i]? := by
  induction tags generalizing c with
  | nil => rfl
  | cons tag rest ih =>
    obtain ⟨start, hopens, hfree, rfl⟩ := htags tag (List.mem_cons_self ..)
    rw [List.foldl_cons, List.foldl_cons, ← styles_paintTag hspans hsections hopens hfree hc hi]
    exact ih (fun t ht => htags t (List.mem_cons_of_mem _ ht)) ((Pass.text_paintTag _ _ _).trans hc)

end Scene

namespace TagFind

variable {f : Frame} {t : Text} {embedded : IntervalSet} {tag : TagFind} {tags : List TagFind} {i : Nat}
variable {base : Option Style}

/-- A tag gives no style to what is outside of it.

**Proof sketch.** The values lie in the tag. -/
lemma shade_of_outside (hfits : f.TagFits tag) (hi : ¬ (tag.start ≤ i ∧ i < tag.stop)) :
    tag.shade t embedded i base = base := by
  have hvalues : covers (Frame.valueIntervals tag.values) (fun _ => true) i = false := by
    rw [Bool.eq_false_iff]
    intro h
    obtain ⟨iv, hiv, -, hpos⟩ := covers_iff.mp h
    have := hfits.values.1 iv hiv
    omega
  unfold shade
  rw [hvalues, if_neg Bool.false_ne_true, if_neg hi, ite_self]

/-- Tags give no style to what is outside of all of them. -/
lemma foldl_shade_of_outside (hfits : ∀ tag ∈ tags, f.TagFits tag)
    (hi : ∀ tag ∈ tags, ¬ (tag.start ≤ i ∧ i < tag.stop)) :
    tags.foldl (fun base tag => tag.shade t embedded i base) base = base := by
  induction tags generalizing base with
  | nil => rfl
  | cons tag rest ih =>
    rw [List.foldl_cons, shade_of_outside (hfits tag (List.mem_cons_self ..))
      (hi tag (List.mem_cons_self ..))]
    exact ih (fun t ht => hfits t (List.mem_cons_of_mem _ ht))
      fun t ht => hi t (List.mem_cons_of_mem _ ht)

/-- Of tags side by side the one that an offset lies in gives it its style.

**Proof sketch.** Induction on the tags. The others lie beside this one. -/
lemma foldl_shade_of_mem (hfits : ∀ tag ∈ tags, f.TagFits tag)
    (htiles : tags.Pairwise fun a b => a.stop ≤ b.start) (htag : tag ∈ tags)
    (hi : tag.start ≤ i ∧ i < tag.stop) :
    tags.foldl (fun base tag => tag.shade t embedded i base) base = tag.shade t embedded i base := by
  induction tags generalizing base with
  | nil => cases htag
  | cons head rest ih =>
    obtain ⟨hhead, hrest⟩ := List.pairwise_cons.mp htiles
    have hfits' : ∀ tag ∈ rest, f.TagFits tag := fun t ht => hfits t (List.mem_cons_of_mem _ ht)
    rw [List.foldl_cons]
    rcases List.mem_cons.mp htag with rfl | htag
    · refine foldl_shade_of_outside hfits' fun t ht => ?_
      have := hhead t ht
      omega
    · have := hhead tag htag
      rw [shade_of_outside (hfits head (List.mem_cons_self ..)) (by omega)]
      exact ih hfits' hrest htag

end TagFind

end LexPaint
