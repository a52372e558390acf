import LexPaint.Proofs.EmbeddedSections
import LexPaint.Proofs.OutsideEdits
import LexPaint.Proofs.SectionOverlaps

set_option relaxedAutoImplicit false
set_option autoImplicit false

/-!
# The parts of an embedded section

A section of an element is its code. A section between marks is divided into the start tag, the code, and
the end tag unless the section ends without one. Marks keep to their line. So where two documents share a
part that begins and ends with full lines, and the section reaches into the part in both of them in the
same way, so does its code.

## Main definitions

* `Region.IsContent`, `Region.Marked`: sections of elements and sections between marks.
* `Region.code`: the code of a section as an interval.

## Main results

* `Frame.regions_parts`: the sections that a sweep maps are divided like that.
* `Region.Marked.samePiece_code`: in a shared part the code is where the section says that it is.
* `Pass.styles_paintRegionMarks`: the marks are what is painted in a section around its code.
-/

namespace LexPaint

/-! ### Marks that exclude each other -/

/-- Whether two marks differ in one of the bytes that both of them have. -/
def Mark.clash (m m' : Mark) : Bool :=
  (m.zip m').any fun pair => pair.1 != pair.2

/-- Marks that differ do not stand at one offset.

**Proof sketch.** Induction on the first mark, by cases on the second one. -/
lemma Text.clash_of_hasAt {t : Text} {pos : Nat} {m m' : Mark} (h : t.hasAt pos m = true)
    (h' : t.hasAt pos m' = true) : m.clash m' = false := by
  induction m generalizing m' pos with
  | nil => rfl
  | cons b rest ih =>
    cases m' with
    | nil => rfl
    | cons b' rest' =>
      rw [hasAt, Bool.and_eq_true, byteIs_eq_iff] at h h'
      obtain rfl : b = b' := Option.some.inj (h.1.symm.trans h'.1)
      have hrest : Mark.clash rest rest' = false := ih h.2 h'.2
      unfold Mark.clash at hrest ⊢
      rw [List.zip_cons_cons, List.any_cons, hrest, Bool.or_false]
      exact bne_self_eq_false b

/-! ### The parts of a region -/

/-- The code of a region as an interval. -/
def Region.code (r : Region) : Interval :=
  ⟨r.codeStart, r.codeStop, r.interval.kind⟩

/-- A section that is the code of its region. -/
structure Region.IsContent (r : Region) : Prop where
  start_eq : r.interval.start = r.codeStart
  stop_eq : r.interval.stop = r.codeStop

/-- A section that starts with one of some marks, and ends with another one or does not contain it. -/
structure Region.Marked (t : Text) (starts : List Mark) (endTag : Mark) (r : Region) : Prop where
  opens : ∃ m ∈ starts, t.hasAt r.interval.start m = true ∧
    r.codeStart = r.interval.start + m.length
  tagStart_eq : r.tagStart = r.interval.start
  tagStop_eq : r.tagStop = r.codeStart
  closes : (r.closing = some r.codeStop ∧ t.hasAt r.codeStop endTag = true ∧
      r.interval.stop = r.codeStop + endTag.length) ∨
    (r.closing = none ∧ r.interval.stop = r.codeStop ∧
      ∀ j, r.codeStart ≤ j → j + endTag.length ≤ r.codeStop → t.hasAt j endTag = false)

namespace Region

variable {t t₀ : Text} {starts : List Mark} {endTag : Mark} {r r₀ : Region} {b b₀ n : Nat}

/-- Where two elements have the same piece, their code has the same piece. -/
lemma IsContent.samePiece_code (hr : r.IsContent) (hr₀ : r₀.IsContent)
    (hsame : r.interval.SamePiece r₀.interval b b₀ n) : r.code.SamePiece r₀.code b b₀ n := by
  obtain ⟨hkind, hstart, hstop⟩ := hsame
  rw [hr.start_eq, hr₀.start_eq] at hstart
  rw [hr.stop_eq, hr₀.stop_eq] at hstop
  exact ⟨hkind, hstart, hstop⟩

namespace Marked

/-- The code of a section that starts in front of a shared part starts there too, and it starts as far
behind the start of the section if that lies in the part.

**Proof sketch.** A start mark keeps to its line, so it does not reach over the start of the part. If
the section starts in the part, then both start there with the same mark, because two different ones
clash. -/
lemma codeStart_eq (hr : r.Marked t starts endTag) (hr₀ : r₀.Marked t₀ starts endTag)
    (htext : t.Twin t₀ b b₀ n) (hplain : ∀ m ∈ starts, m.IsPlain)
    (hclash : ∀ m ∈ starts, ∀ m' ∈ starts, m.clash m' = false → m = m')
    (hsame : max r.interval.start b + b₀ = max r₀.interval.start b₀ + b)
    (hn : 0 < n) (hreach : r.interval.start < b + n) :
    max r.codeStart b + b₀ = max r₀.codeStart b₀ + b := by
  obtain ⟨m, hm, hat, hcode⟩ := hr.opens
  obtain ⟨m₀, hm₀, hat₀, hcode₀⟩ := hr₀.opens
  have haligned (j : Nat) (hj : j < n) (h1 : r.interval.start = b + j)
      (h2 : r₀.interval.start = b₀ + j) : max r.codeStart b + b₀ = max r₀.codeStart b₀ + b := by
    rw [h1] at hat
    rw [h2] at hat₀
    have hboth := (htext.hasAt_of_hasAt (hplain m hm) hj hat).2
    obtain rfl := hclash m hm m₀ hm₀ (Text.clash_of_hasAt hboth hat₀)
    omega
  rcases Nat.lt_or_ge b r.interval.start with hlt | hge
  · exact haligned (r.interval.start - b) (by omega) (by omega) (by omega)
  · rcases htext.opens with ⟨rfl, rfl⟩ | hline
    · exact haligned 0 (by omega) (by omega) (by omega)
    · -- a mark does not reach over the newline that the part begins with
      have hline := hline (by omega)
      have hline₀ := htext.bytes 0 (by omega)
      rw [Nat.add_zero, Nat.add_zero, hline, eq_comm] at hline₀
      have hbefore : r.codeStart ≤ b := by
        refine Nat.le_of_not_lt fun hgt => ?_
        exact Text.byteAt_ne_newline (hplain m hm) hat hge (by omega) hline
      have hbefore₀ : r₀.codeStart ≤ b₀ := by
        refine Nat.le_of_not_lt fun hgt => ?_
        exact Text.byteAt_ne_newline (hplain m₀ hm₀) hat₀ (by omega) (by omega) hline₀
      omega

/-- Two sections that end in a shared part at the same place both end with a mark, if one of them does.

**Proof sketch.** A mark at the end of the first section would stand in the part, so in the other
document as well, inside the section that contains none. -/
lemma closing_eq_none (hr : r.Marked t starts endTag) (hr₀ : r₀.Marked t₀ starts endTag)
    (htext : t.Twin t₀ b b₀ n) (hend : endTag.IsPlain)
    (hcode : max r.codeStart b + b₀ = max r₀.codeStart b₀ + b) (hordered : r.codeStart ≤ r.codeStop)
    {m : Nat} (hm : 0 < m) (hle : m ≤ n) (hstop : r.interval.stop = b + m)
    (hstop₀ : r₀.interval.stop = b₀ + m) (hnone : r₀.closing = none) : r.closing = none := by
  rcases hr.closes with ⟨-, hat, hstop'⟩ | ⟨hclosing, -⟩
  · obtain ⟨-, hstop₀', hfree⟩ := hr₀.closes.resolve_left fun h => by
      rw [hnone] at h
      cases h.1
    -- the mark lies in the part, because it does not reach over the newline that the part begins with
    have hge : b ≤ r.codeStop := by
      refine Nat.le_of_not_lt fun hlt => ?_
      rcases htext.opens with ⟨rfl, -⟩ | hline
      · exact Nat.not_lt_zero _ hlt
      · exact Text.byteAt_ne_newline hend hat (Nat.le_of_lt hlt) (by omega) (hline (by omega))
    obtain ⟨j, hj⟩ := Nat.exists_eq_add_of_le hge
    rw [hj, htext.hasAt_inside_eq (by omega)] at hat
    rw [hfree (b₀ + j) (by omega) (by omega)] at hat
    cases hat
  · exact hclosing

/-- The code of a section that ends behind a shared part ends there too, and it ends as far in front of
the end of the section if that lies in the part.

**Proof sketch.** If the sections end in the part, both end with a mark or neither does. The end mark
keeps to its line, so it does not reach over the end of the part. -/
lemma codeStop_eq (hr : r.Marked t starts endTag) (hr₀ : r₀.Marked t₀ starts endTag)
    (htext : t.Twin t₀ b b₀ n) (hend : endTag.IsPlain)
    (hcode : max r.codeStart b + b₀ = max r₀.codeStart b₀ + b)
    (hsame : min r.interval.stop (b + n) + b₀ = min r₀.interval.stop (b₀ + n) + b)
    (hn : 0 < n) (hreach : b < r.interval.stop) (hsize : r.interval.stop ≤ t.size)
    (hsize₀ : r₀.interval.stop ≤ t₀.size) (hordered : r.codeStart ≤ r.codeStop)
    (hordered₀ : r₀.codeStart ≤ r₀.codeStop) :
    min r.codeStop (b + n) + b₀ = min r₀.codeStop (b₀ + n) + b := by
  -- both sections end at the same place of the part
  have haligned (m : Nat) (hm : 0 < m) (hle : m ≤ n) (hstop : r.interval.stop = b + m)
      (hstop₀ : r₀.interval.stop = b₀ + m) :
      min r.codeStop (b + n) + b₀ = min r₀.codeStop (b₀ + n) + b := by
    have hforth := hr.closing_eq_none hr₀ htext hend hcode hordered hm hle hstop hstop₀
    have hback := hr₀.closing_eq_none hr htext.symm hend hcode.symm hordered₀ hm hle hstop₀ hstop
    rcases hr.closes with ⟨hsome, -, hend'⟩ | ⟨hnone, hend', -⟩ <;>
      rcases hr₀.closes with ⟨hsome₀, -, hend₀⟩ | ⟨hnone₀, hend₀, -⟩
    · omega
    · rw [hforth hnone₀] at hsome
      cases hsome
    · rw [hback hnone] at hsome₀
      cases hsome₀
    · omega
  rcases Nat.lt_or_ge r.interval.stop (b + n) with hlt | hge
  · exact haligned (r.interval.stop - b) (by omega) (by omega) (by omega) (by omega)
  · rcases htext.closes with ⟨hs, hs₀⟩ | hline
    · exact haligned n hn (Nat.le_refl n) (by omega) (by omega)
    · -- a mark does not reach over the newline that the part ends with
      have hbehind {t : Text} {r : Region} {b : Nat} (hr : r.Marked t starts endTag)
          (hline : t.byteAt (b + n - 1) = some newline) (hge : b + n ≤ r.interval.stop) :
          b + n ≤ r.codeStop := by
        rcases hr.closes with ⟨-, hat, hstop⟩ | ⟨-, hstop, -⟩
        · refine Nat.le_of_not_lt fun hlt => ?_
          exact Text.byteAt_ne_newline hend hat (by omega) (by omega) hline
        · omega
      have hline₀ := htext.bytes (n - 1) (by omega)
      rw [← Nat.add_sub_assoc hn, hline hn, ← Nat.add_sub_assoc hn, eq_comm] at hline₀
      have h1 := hbehind hr (hline hn) hge
      have h2 := hbehind hr₀ hline₀ (by omega)
      omega

/-- Where two sections between marks have the same piece in a shared part, their code has the same piece
there. -/
theorem samePiece_code (hr : r.Marked t starts endTag) (hr₀ : r₀.Marked t₀ starts endTag)
    (htext : t.Twin t₀ b b₀ n) (hplain : ∀ m ∈ starts, m.IsPlain)
    (hclash : ∀ m ∈ starts, ∀ m' ∈ starts, m.clash m' = false → m = m') (hend : endTag.IsPlain)
    (hsame : r.interval.SamePiece r₀.interval b b₀ n) (hn : 0 < n)
    (hreach : r.interval.start < b + n ∧ b < r.interval.stop) (hsize : r.interval.stop ≤ t.size)
    (hsize₀ : r₀.interval.stop ≤ t₀.size) (hordered : r.codeStart ≤ r.codeStop)
    (hordered₀ : r₀.codeStart ≤ r₀.codeStop) : r.code.SamePiece r₀.code b b₀ n := by
  have hcode := hr.codeStart_eq hr₀ htext hplain hclash hsame.start_eq hn hreach.1
  exact ⟨hsame.kind_eq, hcode, hr.codeStop_eq hr₀ htext hend hcode hsame.stop_eq hn hreach.2 hsize
    hsize₀ hordered hordered₀⟩

end Marked

end Region

/-! ### What a sweep maps -/

namespace Frame

variable {f : Frame} {l : Layout} {startTag endTag : Mark} {element : Bool} {name : String}
variable {embedded : IntervalSet} {r : Region}

/-- How the region behind a start tag is divided.

**Proof sketch.** By cases on whether the section is an element, and on whether an end tag was found. -/
lemma regionAt_parts {start code : Nat} (hat : f.text.hasAt start startTag = true)
    (hcode : f.codeStart element (start + startTag.length) = some code)
    (h : f.regionAt endTag element name embedded start (start + startTag.length) code = .ok r) :
    r.interval.kind = .embedded name ∧ (element = true → r.IsContent) ∧
      (element = false → r.Marked f.text [startTag] endTag) := by
  obtain ⟨_, -, h⟩ := bind_eq_ok.mp h
  cases h
  cases element with
  | true => exact ⟨rfl, fun _ => ⟨rfl, rfl⟩, by simp⟩
  | false =>
    obtain rfl : code = start + startTag.length := by
      rcases codeStart_cases hcode with ⟨-, heq⟩ | ⟨h, -⟩
      · exact heq
      · cases h
    refine ⟨rfl, by simp, fun _ => ⟨⟨startTag, List.mem_singleton_self _, hat, rfl⟩, rfl, rfl, ?_⟩⟩
    generalize ((embedded.firstFrom (start + startTag.length)).map Interval.start).getD f.hi = limit
    cases hclose : f.text.find endTag (start + startTag.length) limit with
    | some i => exact .inl ⟨rfl, (Text.find_bounds hclose).2.2, rfl⟩
    | none => exact .inr ⟨rfl, rfl, fun j h1 h2 => Text.find_eq_none_iff.mp hclose j h1 h2⟩

/-- How the regions are divided that a sweep maps. -/
theorem regions_parts (hstart : startTag ≠ []) {harvest : Sweep.Harvest Region}
    (h : Sweep.collect (f.regionStep l startTag endTag element name) f.hi f.lo l.embedded =
      .ok harvest) : ∀ r ∈ harvest.items, r.interval.kind = .embedded name ∧
        (element = true → r.IsContent) ∧ (element = false → r.Marked f.text [startTag] endTag) := by
  refine Sweep.forall_mem_collect (J := fun _ _ => True)
    (fun pos embedded verdict next embedded' _ hgo => ⟨trivial, fun r hr => ?_⟩) trivial h
  obtain ⟨-, ⟨rfl, -⟩ | ⟨r', start, code, rfl, -, -, -, hat, -, hcode, hr'⟩⟩ := regionStep_go hstart hgo
  · cases hr
  · cases hr
    exact regionAt_parts hat hcode hr'

end Frame

/-! ### Painting the marks -/

namespace Pass

variable {t : Text} {c : Buffer} {starts : List Mark} {endTag : Mark} {r : Region} {i : Nat}

/-- The marks are what is painted in a section around its code.

**Proof sketch.** What is painted is the start mark, and the end mark if there is one. -/
lemma styles_paintRegionMarks (hr : r.Marked t starts endTag) (hc : c.text = t)
    (hordered : r.codeStart ≤ r.codeStop) (hi : i < t.size) :
    (paintRegionMarks (.document t) endTag false r c).styles[i]? =
      if r.interval.start ≤ i ∧ i < r.interval.stop ∧ ¬ (r.codeStart ≤ i ∧ i < r.codeStop) then
        some .embeddedMarker
      else c.styles[i]? := by
  obtain ⟨m, -, -, hcode⟩ := hr.opens
  have hstart := hr.tagStart_eq
  have hstop := hr.tagStop_eq
  unfold paintRegionMarks
  rw [if_neg Bool.false_ne_true]
  rcases hr.closes with ⟨hclosing, -, hend⟩ | ⟨hclosing, hend, -⟩
  · simp only [hclosing]
    rw [Scene.styles_document_paint ((Scene.text_paint ..).trans hc), Scene.styles_document_paint hc]
    split_ifs <;> first | rfl | omega
  · simp only [hclosing]
    rw [Scene.styles_document_paint hc]
    split_ifs <;> first | rfl | omega

end Pass

end LexPaint
