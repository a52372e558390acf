import LexPaint.Proofs.OutsideEdits
import LexPaint.Proofs.Shading
import LexPaint.Proofs.TagPainting

set_option relaxedAutoImplicit false
set_option autoImplicit false

/-!
# Markup in a part that two documents share

Markup paints its comments and its tags over what embedded sections show. What a tag shows at an offset
depends on where its name ends, on whether the offset lies in a value or in a section, and on the byte
there. The name lies on the line on which the tag starts. So a tag that starts in front of a shared part
and reaches into it shows the same there whatever its name is, as long as its values and the sections
are the same in the part.

## Main definitions

* `Pass.Tagged`: what holds of a full pass that has mapped tags.

## Main results

* `Pass.styles_mapBlockComments`: what shows after mapping comments.
* `Pass.mapTags_tagged`: what shows after mapping tags.
* `Pass.Tagged.twinStyles`: two passes show the same styles in a shared part.
-/

namespace LexPaint

namespace TagFind

variable {f : Frame} {tag : TagFind} {tags : List TagFind} {i : Nat}

/-- Of all values only those of a tag are inside of it.

**Proof sketch.** A value lies in its tag, and tags lie side by side. -/
lemma covers_values (hfits : ∀ tag ∈ tags, f.TagFits tag)
    (htiles : tags.Pairwise fun a b => a.stop ≤ b.start) {values : List Interval}
    (hvalues : ∀ iv, iv ∈ values ↔ ∃ tag ∈ tags, iv ∈ Frame.valueIntervals tag.values)
    (htag : tag ∈ tags) (hi : tag.start ≤ i ∧ i < tag.stop) :
    LexPaint.covers values (fun _ => true) i =
      LexPaint.covers (Frame.valueIntervals tag.values) (fun _ => true) i := by
  rw [Bool.eq_iff_iff, covers_iff, covers_iff]
  constructor
  · rintro ⟨iv, hiv, -, hpos⟩
    obtain ⟨other, hother, hiv⟩ := (hvalues iv).mp hiv
    have hin := (hfits other hother).values.1 iv hiv
    have hsame : other = tag := eq_of_contains htiles hother htag (by omega) hi
    exact ⟨iv, hsame ▸ hiv, rfl, hpos⟩
  · rintro ⟨iv, hiv, -, hpos⟩
    exact ⟨iv, (hvalues iv).mpr ⟨tag, htag, hiv⟩, rfl, hpos⟩

end TagFind

/-- What holds of a full pass over a document that has mapped tags, on a canvas that has looked like
`base` before: a tag gives its style to the offsets in it, apart from those in embedded sections. -/
structure Pass.Tagged (f : Frame) (base : Buffer) (q : Pass) : Prop where
  opens : ∀ iv ∈ q.layout.tags.intervals, f.text.byteAt iv.start = some 0x3C
  inside : ∀ iv ∈ q.layout.tags.intervals, ∀ i, iv.start ≤ i → i < iv.stop → i < f.text.size →
    q.canvas.styles[i]? =
      if q.layout.embedded.Covers i then base.styles[i]?
      else if q.layout.attributeValues.Covers i then some .attributeValue
      else Frame.tagShade f.text iv.start i base.styles[i]?
  outside : ∀ i, i < f.text.size → ¬ q.layout.tags.Covers i → q.canvas.styles[i]? = base.styles[i]?

namespace Pass

variable {f : Frame} {p q : Pass} {opened : Bool} {i : Nat}

/-- What shows after mapping the first comments of a scope. -/
lemma styles_mapBlockComments (hf : f.WellFormed) (hp : p.Fits f opened) {opener closer : Mark}
    (hopener : opener.IsPlain) (hcloser : closer.IsPlain) {ignoreQuoted : Bool}
    (hnone : p.layout.blockComments.intervals = #[])
    (h : p.mapBlockComments (.document f.text) f opener closer ignoreQuoted = .ok q)
    (hi : i < f.text.size) :
    q.canvas.styles[i]? =
      if q.layout.blockComments.Covers i then some .comment else p.canvas.styles[i]? := by
  obtain ⟨found, -, -, rfl⟩ := mapBlockComments_eq_ok hf hp hopener hcloser h
  have hcovers : covers found.toList (fun _ => true) i = true ↔
      (p.layout.blockComments.addAll found).Covers i := by
    simp [covers_iff, IntervalSet.Covers, IntervalSet.mem_addAll, hnone]
  exact (Scene.styles_paintAll hp.text found .comment hi).trans (if_congr hcovers rfl rfl)

/-- Mapping the first tags of a document.

**Proof sketch.** Each tag of the sweep starts at an angle bracket outside sections and is painted
over the canvas, and tags lie side by side, so what an offset shows is decided by the one tag around
it. -/
theorem mapTags_tagged (hf : f.WellFormed) (hspans : f.Spans) (ht : p.canvas.text = f.text)
    (hsections : f.text.SectionsOpened p.layout.embedded) (htags : p.layout.tags.intervals = #[])
    (hvalues : p.layout.attributeValues.intervals = #[])
    (h : p.mapTags (.document f.text) f = .ok q) : q.Tagged f p.canvas := by
  obtain ⟨harvest, tagSet, valueSet, hharvest, hlayout, hcanvas, htagList, hvalueList⟩ :=
    mapTags_lists hf htags hvalues h
  have htiles := Frame.tiles_tags hf hharvest
  have hclean := Frame.tags_clean hf hharvest
  have hfound : ∀ tag ∈ harvest.items.toList, ∃ start, f.text.OpensTag start ∧
      ¬ p.layout.embedded.Covers start ∧ tag = f.tagAt p.layout start := by
    intro tag htag
    obtain ⟨start, hopens, hfree, heq⟩ := Frame.tags_found hharvest tag (Array.mem_toList_iff.mp htag)
    refine ⟨start, hopens, fun hc => ?_, heq⟩
    rw [← IntervalSet.isSome_inString_iff hsections.nested, IntervalSet.inString, hfree] at hc
    cases hc
  rw [← Array.foldl_toList] at hcanvas
  simp only [← Array.mem_toList_iff] at hclean
  generalize harvest.items.toList = tags at hcanvas htagList hvalueList htiles hclean hfound
  have hinside : ∀ tag ∈ tags, f.TagFits tag := fun tag htag => (hclean tag htag).1
  have hside : tags.Pairwise fun a b => a.stop ≤ b.start := List.pairwise_map.mp htiles.2
  have hstyles (i : Nat) (hi : i < f.text.size) :=
    Scene.styles_foldl_paintTag hspans hsections hfound ht hi
  refine ⟨fun iv hiv => ?_, fun iv hiv i h1 h2 hi => ?_, fun i hi hout => ?_⟩
  · rw [hlayout] at hiv
    obtain ⟨tag, htag, rfl⟩ := (TagFind.mem_tags_iff htagList).mp hiv
    obtain ⟨start, hopens, -, rfl⟩ := hfound tag htag
    exact hopens.1
  · rw [hlayout] at hiv
    obtain ⟨tag, htag, rfl⟩ := (TagFind.mem_tags_iff htagList).mp hiv
    -- in a tag only its own values count
    have hcovers : covers (Frame.valueIntervals tag.values) (fun _ => true) i = true ↔
        valueSet.Covers i := by
      rw [← TagFind.covers_values hinside hside (fun iv => by
        rw [Array.mem_toList_iff, TagFind.mem_values_iff hvalueList])
        htag ⟨h1, h2⟩, IntervalSet.covers_toList_iff]
    rw [hcanvas, hlayout, hstyles i hi, TagFind.foldl_shade_of_mem hinside hside htag ⟨h1, h2⟩]
    unfold TagFind.shade
    rw [if_pos (show tag.start ≤ i ∧ i < tag.stop from ⟨h1, h2⟩), if_congr hcovers rfl rfl]
  · rw [hlayout] at hout
    rw [hcanvas, hstyles i hi]
    exact TagFind.foldl_shade_of_outside hinside fun tag htag hpos =>
      hout ⟨_, (TagFind.mem_tags_iff htagList).mpr ⟨tag, htag, rfl⟩, hpos⟩

namespace Tagged

variable {f₀ : Frame} {q₀ : Pass} {base base₀ : Buffer} {b b₀ n : Nat}

/-- **Tags in a shared part.** Two documents share a part, and before their tags are painted they look
the same there. If tags, values and embedded sections are the same in the part, then they look the same
behind it.

**Proof sketch.** A tag that starts in the part has its name at the same place in both documents. One
that starts in front of the part does so in both documents, and its name does not reach into the part,
which begins with a newline. -/
theorem twinStyles (hq : q.Tagged f base) (hq₀ : q₀.Tagged f₀ base₀)
    (htext : f.text.Twin f₀.text b b₀ n) (hbase : base.TwinStyles base₀ b b₀ n)
    (htags : SamePieces q.layout.tags.intervals.toList q₀.layout.tags.intervals.toList b b₀ n)
    (hvalues : SamePieces q.layout.attributeValues.intervals.toList
      q₀.layout.attributeValues.intervals.toList b b₀ n)
    (hembedded : SamePieces q.layout.embedded.intervals.toList
      q₀.layout.embedded.intervals.toList b b₀ n) :
    q.canvas.TwinStyles q₀.canvas b b₀ n := by
  intro k hk
  have h1 := htext.le_size
  have h2 := htext.le_size₀
  by_cases hin : q.layout.tags.Covers (b + k)
  · obtain ⟨iv, hiv, hpos⟩ := hin
    obtain ⟨iv₀, hiv₀, -, hstart, hstop⟩ := htags.forth iv (by simpa using hiv) k hk hpos.1 hpos.2
    have hiv₀ : iv₀ ∈ q₀.layout.tags.intervals := by simpa using hiv₀
    rw [hq.inside iv hiv _ hpos.1 hpos.2 (by omega),
      hq₀.inside iv₀ hiv₀ _ (by omega) (by omega) (by omega),
      if_congr (hembedded.covers_iff hk) rfl rfl, if_congr (hvalues.covers_iff hk) rfl rfl, hbase k hk]
    congr 2
    -- a tag that starts at the same place of the part shades it alike
    have haligned (heq : iv.start + b₀ = iv₀.start + b) (hle : b ≤ iv.start) :
        Frame.tagShade f.text iv.start (b + k) base₀.styles[b₀ + k]? =
          Frame.tagShade f₀.text iv₀.start (b₀ + k) base₀.styles[b₀ + k]? := by
      obtain ⟨m, hm⟩ := Nat.exists_eq_add_of_le hpos.1
      rw [hm, show b₀ + k = iv₀.start + m by omega]
      refine Frame.tagShade_congr (by omega) (by omega) (fun j hj => ?_) _
      have := htext.bytes (iv.start + j - b) (by omega)
      rwa [Nat.add_sub_cancel' (by omega),
        show b₀ + (iv.start + j - b) = iv₀.start + j by omega] at this
    rcases Nat.lt_or_ge b iv.start with hlt | hge
    · exact haligned (by omega) (Nat.le_of_lt hlt)
    · rcases htext.opens with ⟨rfl, rfl⟩ | hline
      · exact haligned (by omega) (Nat.zero_le _)
      · have hline := hline (by omega)
        have hline₀ := htext.bytes 0 (by omega)
        rw [Nat.add_zero, Nat.add_zero, hline, eq_comm] at hline₀
        -- no tag starts with a newline
        have hne : iv.start ≠ b := fun heq => by
          have := hq.opens iv hiv
          rw [heq, hline] at this
          cases this
        have hne₀ : iv₀.start ≠ b₀ := fun heq => by
          have := hq₀.opens iv₀ hiv₀
          rw [heq, hline₀] at this
          cases this
        rw [Frame.tagShade_of_newline (by omega) (by omega) (Nat.le_add_right _ k) hline,
          Frame.tagShade_of_newline (by omega) (by omega) (Nat.le_add_right _ k) hline₀,
          htext.byteIs_eq hk]
  · rw [hq.outside _ (by omega) hin, hq₀.outside _ (by omega) ((htags.covers_iff hk).not.mp hin),
      hbase k hk]

end Tagged

end Pass

end LexPaint
