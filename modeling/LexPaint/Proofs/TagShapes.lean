import LexPaint.Proofs.LiteralStarts
import LexPaint.Proofs.RequestSafety
import LexPaint.Proofs.TagScans

set_option relaxedAutoImplicit false
set_option autoImplicit false

/-!
# The tags of XML

XML is lexed in two steps, comments first and tags second, and neither of them looks at what an earlier
pass has left. So the tags and the values of any pass are a matter of its text and of its comments: each
tag is what the rules of markup make of the text behind its bracket, and no bracket is left over that
should have been one.

## Main definitions

* `Layout.valuesIn`: the attribute values in a tag.
* `Layout.TagsExact`: the tags of a layout are those of a text.

## Main results

* `Pass.mapTags_exact`: mapping the tags of a document with comments.
* `Painter.xml_tagsExact`: the tags after any request on an XML document.
-/

namespace LexPaint

namespace Layout

/-- The attribute values in a tag, in the order in which they were mapped. -/
def valuesIn (l : Layout) (tag : Interval) : List Interval :=
  l.attributeValues.intervals.toList.filter fun value => tag.contains value.start

/-- The tags of a layout are those of a text: they start at brackets that open a tag outside of all
comments, each has the values and the end that it is read to have behind its name, there are no other
values, and every bracket that opens a tag starts one, or lies in a comment, or lies in a value. -/
structure TagsExact (t : Text) (l : Layout) : Prop where
  opened : ∀ tag ∈ l.tags.intervals, t.OpensTag tag.start ∧ ¬ l.blockComments.Covers tag.start
  body : ∀ tag ∈ l.tags.intervals, ∃ n, Frame.NameEnds t tag.start n ∧
    t.IsTagBody t.size n tag.stop (l.valuesIn tag)
  inTags : ∀ value ∈ l.attributeValues.intervals, ∃ tag ∈ l.tags.intervals, value ∈ l.valuesIn tag
  complete : ∀ i, t.OpensTag i → (∃ tag ∈ l.tags.intervals, tag.start = i) ∨
    l.blockComments.Covers i ∨ l.attributeValues.Covers i

/-- The values in one of the mapped tags are those that were read for it. -/
lemma mem_valuesIn_iff {l : Layout} {tags : List TagFind} {tag : TagFind}
    (htags : tags.Pairwise fun a b => a.stop ≤ b.start)
    (hmem : ∀ value, value ∈ l.attributeValues.intervals ↔
      ∃ tag ∈ tags, value ∈ Frame.valueIntervals tag.values)
    (hinside : ∀ tag ∈ tags, ∀ value ∈ Frame.valueIntervals tag.values,
      tag.start ≤ value.start ∧ value.start < tag.stop) (htag : tag ∈ tags) (value : Interval) :
    value ∈ l.valuesIn ⟨tag.start, tag.stop, .tag⟩ ↔ value ∈ Frame.valueIntervals tag.values := by
  unfold valuesIn
  rw [List.mem_filter, Array.mem_toList_iff, hmem, Interval.contains_iff]
  constructor
  · rintro ⟨⟨other, hother, hvalue⟩, hin⟩
    rwa [← TagFind.eq_of_contains htags hother htag (hinside other hother value hvalue) hin]
  · exact fun hvalue => ⟨⟨tag, htag, hvalue⟩, hinside tag htag value hvalue⟩

/-- Keeping a pass as history leaves its tags. -/
lemma TagsExact.commit {t : Text} {l : Layout} (h : l.TagsExact t) : l.commit.TagsExact t :=
  ⟨h.opened, h.body, h.inTags, h.complete⟩

end Layout

/-! ### One pass -/

namespace Pass

variable {s : Scene} {f : Frame} {p q : Pass}

/-- **Mapping tags.** The tags of a document without embedded sections are those of its text.

**Proof sketch.** Every bracket that opens a tag was passed, so it lies in a comment or in a tag. In a
tag it is the first byte, or it stands behind the name and would have ended the tag outside of values.
Tags lie side by side, so the values in a tag are the ones that were read for it. -/
theorem mapTags_exact (hf : f.WellFormed) (hspans : f.Spans)
    (hembedded : p.layout.embedded.intervals = #[]) (htags : p.layout.tags.intervals = #[])
    (hvalues : p.layout.attributeValues.intervals = #[]) (hblocks : p.layout.blockComments.Nested)
    (h : p.mapTags s f = .ok q) : q.layout.TagsExact f.text := by
  obtain ⟨harvest, tags, values, hharvest, hlayout, -, htagList, hvalueList⟩ :=
    mapTags_lists hf htags hvalues h
  have hside : harvest.items.toList.Pairwise fun a b => a.stop ≤ b.start :=
    List.pairwise_map.mp (Frame.tiles_tags hf hharvest).2
  obtain ⟨hfound, hpassed⟩ := Frame.tags_read hembedded hharvest
  have hclean := Frame.tags_clean hf hharvest
  simp only [← Array.mem_toList_iff] at hclean hfound hpassed
  generalize harvest.items.toList = found at hside hclean hfound hpassed htagList hvalueList
  have hbody : ∀ tag ∈ found, Frame.NameEnds f.text tag.start tag.nameStop ∧
      f.text.IsTagBody f.text.size tag.nameStop tag.stop (Frame.valueIntervals tag.values) := by
    intro tag htag
    obtain ⟨start, hopens, -, rfl⟩ := hfound tag htag
    exact ⟨Frame.nameEnds_tagAt hspans p.layout hopens,
      hspans.hi_eq ▸ Frame.tagAt_isTagBody hembedded start⟩
  have hinside : ∀ tag ∈ found, ∀ value ∈ Frame.valueIntervals tag.values,
      tag.start ≤ value.start ∧ value.start < tag.stop := fun tag htag value hvalue =>
    ⟨((hclean tag htag).1.values.1 value hvalue).1, ((hbody tag htag).2.start_bounds hvalue).2⟩
  -- tags lie side by side, so a value lies in the tag that it was read for
  have hvaluesIn {tag : TagFind} (htag : tag ∈ found) (value : Interval) :
      value ∈ q.layout.valuesIn ⟨tag.start, tag.stop, .tag⟩ ↔
        value ∈ Frame.valueIntervals tag.values := by
    rw [hlayout]
    exact Layout.mem_valuesIn_iff hside (fun _ => TagFind.mem_values_iff hvalueList) hinside htag value
  rw [hlayout] at hvaluesIn ⊢
  refine ⟨fun iv hiv => ?_, fun iv hiv => ?_, fun value hvalue => ?_, fun i hopens => ?_⟩
  · obtain ⟨tag, htag, rfl⟩ := (TagFind.mem_tags_iff htagList).mp hiv
    obtain ⟨start, hopens, hout, rfl⟩ := hfound tag htag
    refine ⟨hopens, fun ⟨block, hblock, hin⟩ => ?_⟩
    have hsome := (IntervalSet.isSome_intervalAt_iff hblocks).mpr
      ⟨block, hblock, Interval.contains_iff.mpr hin⟩
    rw [show p.layout.blockComments.intervalAt (f.tagAt p.layout start).start = none from hout] at hsome
    cases hsome
  · obtain ⟨tag, htag, rfl⟩ := (TagFind.mem_tags_iff htagList).mp hiv
    exact ⟨tag.nameStop, (hbody tag htag).1, (hbody tag htag).2.congr (hvaluesIn htag)⟩
  · obtain ⟨tag, htag, hvalue⟩ := (TagFind.mem_values_iff hvalueList).mp hvalue
    exact ⟨_, (TagFind.mem_tags_iff htagList).mpr ⟨tag, htag, rfl⟩, (hvaluesIn htag value).mpr hvalue⟩
  · have hlt : i < f.hi := hspans.hi_eq ▸ Text.lt_size_of_byteAt hopens.1
    obtain ⟨block, hblock, hin⟩ | ⟨tag, htag, h1, h2⟩ :=
      hpassed i (hspans.lo_eq ▸ Nat.zero_le i) hlt hopens
    · exact .inr (.inl ⟨block, Array.mem_toList_iff.mp hblock, hin⟩)
    · -- the bracket opens the tag, or it would have ended the tag unless a value covers it
      rcases Nat.eq_or_lt_of_le h1 with heq | hlt'
      · exact .inl ⟨_, (TagFind.mem_tags_iff htagList).mpr ⟨tag, htag, rfl⟩, heq⟩
      · obtain ⟨hname, hbody⟩ := hbody tag htag
        have hstop := hspans.hi_eq ▸ (hclean tag htag).1.stop_le
        obtain ⟨value, hvalue, hin⟩ :=
          hbody.exists_value hstop (hname.le_of_bracket hlt' hopens.1) h2 hopens.1
        exact .inr (.inr
          ⟨value, (TagFind.mem_values_iff hvalueList).mpr ⟨tag, htag, hvalue⟩, hin⟩)

end Pass

/-- The tags of any pass over an XML document are those of its text.

**Proof sketch.** The program maps comments, and then tags, in a document without embedded sections.
Comments lie side by side, so queries find them. -/
lemma Profile.runPass_xml {doc : Buffer} (hdoc : doc.text.Valid) {start length : Nat} {detect : Bool}
    {layout : Layout} {nested : IntervalSet} {pass : Pass}
    (hpass : xml.runPass doc start length detect layout nested = .ok pass) :
    pass.layout.TagsExact doc.text := by
  have hf := Frame.wellFormed_document hdoc xml.dialect
  unfold runPass at hpass
  rw [show xml.program = [Primitive.markupComments, .tags] from rfl,
    Primitive.runAll_cons rfl] at hpass
  obtain ⟨p, hcomments, hpass⟩ := bind_eq_ok.mp hpass
  simp only [Primitive.markupComments, Primitive.run] at hcomments
  obtain ⟨harvest, hharvest, hcomments⟩ := bind_eq_ok.mp hcomments
  obtain ⟨htiles, -⟩ := (Frame.blockComments_ensures hf .unconditional (by decide) (by decide) false
    (by simp [Layout.reset]) _).elim hharvest
  cases hcomments
  rw [Primitive.runAll_cons rfl] at hpass
  obtain ⟨q, htags, hpass⟩ := bind_eq_ok.mp hpass
  simp only [Primitive.runAll] at hpass
  cases hpass
  simp only [Primitive.run] at htags
  have hnested : (layout.reset.blockComments.addAll harvest.items).Nested := by
    unfold IntervalSet.Nested
    rw [IntervalSet.toList_addAll rfl (htiles.nested.imp And.left)]
    exact htiles.nested
  exact Pass.mapTags_exact hf ⟨rfl, rfl, rfl⟩ rfl rfl rfl hnested htags

namespace Painter

/-- **Tags are recognized exactly.** After either request on an XML document, each tag starts at a bracket
outside of all comments that a letter, a slash, an exclamation mark or a question mark follows. It ends
behind the first `>` or in front of the first `<` that stands behind its name and outside of its values,
or with the text. Its values are what the quotes outside of earlier values open, each up to the next
equal quote and over it. Every such bracket starts a tag, or lies in a comment, or lies in a value of a
tag. A painter whose sets are in order gives every text a full pass.

**Proof sketch.** Every pass starts from empty sets, maps the comments side by side and then the tags. -/
theorem xml_tagsExact {doc : Buffer} (hdoc : doc.text.Valid) :
    (∀ p : Painter, p.layout.HistoryOrdered → ∃ r, p.full .xml doc = .ok r) ∧
    (∀ (p p' : Painter) (doc' : Buffer), p.full .xml doc = .ok (p', doc') →
      p'.layout.TagsExact doc.text) ∧
    ∀ (p p' : Painter) (s : Section) (w : EditWindow) (kind : PassKind) (doc' : Buffer),
      p.edit .xml doc s w = .ok (kind, p', doc') → p'.layout.TagsExact doc.text := by
  have hpass : ∀ (doc₁ : Buffer) (start length : Nat) (detect : Bool) (layout : Layout)
      (nested : IntervalSet) (pass : Pass), doc₁.text = doc.text →
        Profile.xml.runPass doc₁ start length detect layout nested = .ok pass →
          pass.layout.commit.TagsExact doc.text := by
    intro doc₁ start length detect layout nested pass htext hpass
    rw [← htext]
    exact (Profile.runPass_xml (htext ▸ hdoc) hpass).commit
  refine ⟨fun p hp => ?_, fun p p' doc' h => full_layout hpass h,
    fun p p' s w kind doc' h => edit_layout hpass h⟩
  have hxml : Profile.xml ∈ Profile.builtIn := by simp [Profile.builtIn]
  obtain ⟨r, hr, -⟩ := full_ensures (Profile.sound_of_mem_builtIn hxml) hdoc hp
  exact ⟨r, hr⟩

/-- A comment with a bracket in it, a value with the other quote and brackets in it, a tag that ends in
front of the next one, and a value that is not closed. -/
theorem xml_tagsExact_nested :
    ∃ (p : Painter) (doc : Buffer), Painter.new.full .xml (Buffer.new
        (Text.ofString "<!-- <a> -->< b><c d='\"<e>'>\n</f<?g \"h>")) = .ok (p, doc) ∧
      p.layout.TagsExact (Text.ofString "<!-- <a> -->< b><c d='\"<e>'>\n</f<?g \"h>") ∧
      p.layout.blockComments.intervals = #[⟨0, 12, .blockComment⟩] ∧
      p.layout.tags.intervals = #[⟨16, 28, .tag⟩, ⟨29, 32, .tag⟩, ⟨32, 39, .tag⟩] ∧
      p.layout.attributeValues.intervals =
        #[⟨21, 27, .attributeValue⟩, ⟨36, 39, .attributeValue⟩] := by
  let t := Text.ofString "<!-- <a> -->< b><c d='\"<e>'>\n</f<?g \"h>"
  have ht : (Buffer.new t).text.Valid := Text.valid_ofString _
  have hrun : (do
      let r ← Painter.new.full .xml (Buffer.new t)
      demand ((r.1.layout.blockComments.intervals, r.1.layout.tags.intervals,
        r.1.layout.attributeValues.intervals) =
          ((#[⟨0, 12, .blockComment⟩], #[⟨16, 28, .tag⟩, ⟨29, 32, .tag⟩, ⟨32, 39, .tag⟩],
            #[⟨21, 27, .attributeValue⟩, ⟨36, 39, .attributeValue⟩]) :
              Array Interval × Array Interval × Array Interval)) .outOfRange) = .ok () := by
    decide +kernel
  obtain ⟨⟨p, doc⟩, hfull, hrun⟩ := bind_eq_ok.mp hrun
  have hsets := of_decide_eq_true (demand_eq_ok_iff.mp hrun)
  simp only [Prod.mk.injEq] at hsets
  exact ⟨p, doc, hfull, (xml_tagsExact ht).2.1 _ _ _ hfull, hsets⟩

end Painter

end LexPaint
