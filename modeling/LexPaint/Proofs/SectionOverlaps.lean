import LexPaint.Profile.Markup
import LexPaint.Proofs.BlockOverlaps
import LexPaint.Proofs.EmbeddedSections
import LexPaint.Proofs.LiteralStarts

set_option relaxedAutoImplicit false
set_option autoImplicit false

/-!
# How embedded sections overlap

A document in HTML has embedded sections of several kinds, each found by a scan of its own: first those
between marks that belong to them, then those of elements. No section reaches into one that starts
behind it. A start tag inside an earlier section opens none. But the content of an element starts behind
the `>` of its opening tag, and this is looked for without regard to embedded sections. So it can be
found inside a section of an earlier scan, which the new one then overlaps.

## Main definitions

* `Text.SectionOrder`: how two embedded sections lie.
* `Frame.StackedSections`: the sections after the scans for some kinds.
* `Primitive.sectionKinds`: the programs whose scans for sections go together.

## Main results

* `Frame.StackedSections.scan`: one scan.
* `Primitive.runAll_stackedSections`: the scans of a program.
* `Painter.pass_overlaps`: the sets that several scans fill, after any pass.
-/

namespace LexPaint

/-- How two embedded sections lie in a set that was filled by scans for some kinds in turn: the second
one starts later, and it starts behind the first one, or right behind a `>` in it. In the second case
its kind was scanned for later. -/
def Text.SectionOrder (t : Text) (kinds : List IntervalKind) (a b : Interval) : Prop :=
  a.start < b.start ∧ (a.stop ≤ b.start ∨
    t.byteAt (b.start - 1) = some 0x3E ∧ [a.kind, b.kind].Sublist kinds)

/-- Sections stay in order when further kinds are scanned for. -/
lemma Text.SectionOrder.mono {t : Text} {kinds kinds' : List IntervalKind} {a b : Interval}
    (h : t.SectionOrder kinds a b) (hsub : kinds.Sublist kinds') : t.SectionOrder kinds' a b :=
  ⟨h.1, h.2.imp_right fun hover => ⟨hover.1, hover.2.trans hsub⟩⟩

/-- Sections of one kind do not overlap. -/
lemma Text.SectionOrder.disjoint {t : Text} {kind : IntervalKind} {a b : Interval}
    (h : t.SectionOrder [kind] a b) : a.stop ≤ b.start := by
  refine h.2.resolve_right fun hover => ?_
  have := hover.2.length_le
  simp at this

/-- The last region is added last. -/
lemma IntervalSet.foldl_addRegion_push (s : IntervalSet) (found : Array Region) (r : Region) :
    (found.push r).foldl Frame.addRegion s = Frame.addRegion (found.foldl Frame.addRegion s) r := by
  simp

namespace Frame

/-- The embedded sections of a scope after the scans for some kinds. As long as only one kind was
scanned for, all of them start with an angle bracket. -/
structure StackedSections (f : Frame) (kinds : List IntervalKind) (embedded : IntervalSet) :
    Prop where
  nonempty : ∀ iv ∈ embedded.intervals, iv.start < iv.stop
  within : ∀ iv ∈ embedded.intervals, iv.stop ≤ f.hi
  kind_mem : ∀ iv ∈ embedded.intervals, iv.kind ∈ kinds
  marked : kinds.length ≤ 1 → ∀ iv ∈ embedded.intervals, f.text.byteAt iv.start = some 0x3C
  ordered : embedded.intervals.toList.Pairwise (f.text.SectionOrder kinds)

variable {f : Frame} {l : Layout} {kinds kinds' : List IntervalKind} {kind : IntervalKind}
variable {embedded embedded' : IntervalSet} {startTag endTag : Mark} {element : Bool} {name : String}
variable {pos next tagStart code : Nat} {r : Region} {iv : Interval}

namespace StackedSections

/-- Without sections there is nothing to order. -/
lemma of_empty (h : embedded.intervals = #[]) : f.StackedSections kinds embedded := by
  refine ⟨?_, ?_, ?_, ?_, ?_⟩ <;> simp [h]

/-- The sections are sorted by their starts. -/
lemma sorted (h : f.StackedSections kinds embedded) : embedded.Sorted :=
  h.ordered.imp fun hab => Nat.le_of_lt hab.1

/-- One more kind is scanned for. -/
lemma mono (h : f.StackedSections kinds embedded) (hsub : kinds.Sublist kinds')
    (hmarked : kinds'.length ≤ 1 → kinds.length ≤ 1) : f.StackedSections kinds' embedded where
  nonempty := h.nonempty
  within := h.within
  kind_mem iv hiv := hsub.subset (h.kind_mem iv hiv)
  marked hlength := h.marked (hmarked hlength)
  ordered := h.ordered.imp fun hab => hab.mono hsub

/-- Sections of one kind lie side by side, so queries find the section that contains an offset. -/
lemma nested (h : f.StackedSections [kind] embedded) : embedded.Nested := by
  refine h.ordered.imp_of_mem fun {a b} ha hb hab => ?_
  have h1 := h.nonempty a (Array.mem_toList_iff.mp ha)
  have h2 := h.nonempty b (Array.mem_toList_iff.mp hb)
  have h3 := hab.disjoint
  omega

/-- A section with its marks is in order with others of its kind, if its start lies outside of them and
it does not reach into those behind it.

**Proof sketch.** Its neighbours in the set lie apart from it: the start is outside those in front,
and the end does not reach those behind. -/
lemma addMarked (h : f.StackedSections [kind] embedded) (hkind : iv.kind = kind)
    (hnonempty : iv.start < iv.stop) (hwithin : iv.stop ≤ f.hi)
    (hmark : f.text.byteAt iv.start = some 0x3C)
    (hfree : (embedded.inString iv.start).isSome = false)
    (hclear : ∀ x ∈ embedded.intervals, iv.start < x.start → iv.stop ≤ x.start) :
    f.StackedSections [kind] (embedded.add iv) := by
  refine ⟨fun x hx => ?_, fun x hx => ?_, fun x hx => ?_, fun hlength x hx => ?_,
    IntervalSet.pairwise_add h.sorted h.ordered (fun x hx hle => ?_) fun x hx hlt => ?_⟩
  · rcases IntervalSet.mem_add.mp hx with rfl | hx
    exacts [hnonempty, h.nonempty x hx]
  · rcases IntervalSet.mem_add.mp hx with rfl | hx
    exacts [hwithin, h.within x hx]
  · rcases IntervalSet.mem_add.mp hx with rfl | hx
    exacts [List.mem_singleton.mpr hkind, h.kind_mem x hx]
  · rcases IntervalSet.mem_add.mp hx with rfl | hx
    exacts [hmark, h.marked hlength x hx]
  · have hout := h.nested.stop_le_of_inString hfree hx hle
    have := h.nonempty x hx
    exact ⟨by omega, .inl (by omega)⟩
  · exact ⟨hlt, .inl (hclear x hx hlt)⟩

/-- The content of an element is in order with the sections of earlier kinds, and with those of its own
kind that it lies behind.

**Proof sketch.** Sections of earlier kinds in front of it may contain its start, which lies right
behind an angle bracket. Those of its own kind end in front of it, and it does not reach into those
behind. -/
lemma addContent (h : f.StackedSections (kinds ++ [kind]) embedded) (hkinds : kinds ≠ [])
    (hkind : iv.kind = kind) (hnonempty : iv.start < iv.stop) (hwithin : iv.stop ≤ f.hi)
    (hclose : f.text.byteAt (iv.start - 1) = some 0x3E)
    (hearlier : ∀ x ∈ embedded.intervals, x.kind ∈ kinds ∨ x.stop ≤ iv.start)
    (hclear : ∀ x ∈ embedded.intervals, iv.start ≤ x.start → iv.stop ≤ x.start) :
    f.StackedSections (kinds ++ [kind]) (embedded.add iv) := by
  refine ⟨fun x hx => ?_, fun x hx => ?_, fun x hx => ?_, fun hlength => ?_,
    IntervalSet.pairwise_add h.sorted h.ordered (fun x hx hle => ?_) fun x hx hlt => ?_⟩
  · rcases IntervalSet.mem_add.mp hx with rfl | hx
    exacts [hnonempty, h.nonempty x hx]
  · rcases IntervalSet.mem_add.mp hx with rfl | hx
    exacts [hwithin, h.within x hx]
  · rcases IntervalSet.mem_add.mp hx with rfl | hx
    exacts [by simp [hkind], h.kind_mem x hx]
  · have := List.length_pos_iff.mpr hkinds
    rw [List.length_append, List.length_singleton] at hlength
    omega
  · have hne : x.start ≠ iv.start := fun heq => by
      have := hclear x hx (by omega)
      omega
    refine ⟨by omega, ?_⟩
    rcases hearlier x hx with hx' | hstop
    · refine .inr ⟨hclose, ?_⟩
      rw [hkind]
      exact (List.singleton_sublist.mpr hx').append (.refl [kind])
    · exact .inl hstop
  · exact ⟨hlt, .inl (hclear x hx (Nat.le_of_lt hlt))⟩

end StackedSections

/-! ### One region -/

/-- A region does not reach into the sections that start behind the start of its code.

**Proof sketch.** The end tag is searched for up to the first section that starts behind the code. -/
lemma regionAt_clear (hsorted : embedded.Sorted)
    (h : f.regionAt endTag element name embedded tagStart pos code = .ok r) :
    r.interval.kind = .embedded name ∧ r.interval.start = (if element then code else tagStart) ∧
      ∀ x ∈ embedded.intervals, code ≤ x.start → r.interval.stop ≤ x.start := by
  obtain ⟨_, hrange, h⟩ := bind_eq_ok.mp h
  cases h
  have hlimit : ∀ x ∈ embedded.intervals, code ≤ x.start →
      ((embedded.firstFrom code).map Interval.start).getD f.hi ≤ x.start := by
    intro x hx hle
    obtain ⟨iv, hiv⟩ := hsorted.exists_firstFrom hx hle
    rw [hiv]
    exact (hsorted.firstFrom_eq_some hiv).2.2 x hx hle
  generalize ((embedded.firstFrom code).map Interval.start).getD f.hi = limit at hlimit
  refine ⟨by cases element <;> rfl, by cases element <;> rfl, fun x hx hle => ?_⟩
  refine Nat.le_trans ?_ (hlimit x hx hle)
  cases hclose : f.text.find endTag code limit with
  | none => cases element <;> exact Nat.le_refl _
  | some i =>
    have hfits := (Text.find_bounds hclose).2.1
    cases element
    · exact hfits
    · exact Nat.le_trans (Nat.le_add_right _ _) hfits

/-- What one step of a scan for regions does: it passes by a start tag, or it maps the region behind one
that lies outside of the sections that are there already.

**Proof sketch.** By cases on the start tag: it lies in a section or in a comment, it has no end, or
a region follows it. -/
lemma regionStep_go (hstart : startTag ≠ []) {verdict : Sweep.Verdict Region}
    (h : f.regionStep l startTag endTag element name pos embedded =
      .ok (.go verdict next embedded')) :
    pos < next ∧ (verdict = .nothing ∧ embedded' = embedded ∨
      ∃ r start code, verdict = .accepted r ∧ embedded' = addRegion embedded r ∧
        r.interval.stop ≤ next ∧ pos ≤ start ∧ f.text.hasAt start startTag = true ∧
        (embedded.inString start).isSome = false ∧
        f.codeStart element (start + startTag.length) = some code ∧
        f.regionAt endTag element name embedded start (start + startTag.length) code = .ok r) := by
  have hlength : 0 < startTag.length := List.length_pos_iff.mpr hstart
  obtain ⟨_, -, h⟩ := bind_eq_ok.mp h
  split at h
  · cases h
  · rename_i start hfind
    obtain ⟨hle, -, hat⟩ := Text.find_bounds hfind
    dsimp only at h
    split at h
    · cases h
      exact ⟨by omega, .inl ⟨rfl, rfl⟩⟩
    · rename_i hout
      -- a start tag in a section would have been passed
      have hfree : (embedded.inString start).isSome = false := by
        simp only [Bool.or_eq_true, not_or] at hout
        exact Bool.eq_false_iff.mpr hout.1
      split at h
      · cases h
        exact ⟨by omega, .inl ⟨rfl, rfl⟩⟩
      · rename_i code hcode
        obtain ⟨r, hr, h⟩ := bind_eq_ok.mp h
        cases h
        exact ⟨by omega, .inr ⟨r, start, code, rfl, rfl, Nat.le_max_left _ _, hle, hat, hfree, hcode,
          hr⟩⟩

namespace StackedSections

/-- A region between marks joins the sections of its kind.

**Proof sketch.** No section starts inside the start tag, which has no other angle bracket. So those
that start behind the section start behind its code as well. -/
lemma addRegion_marked (h : f.StackedSections [.embedded name] embedded)
    (hfirst : startTag.head? = some 0x3C) (htail : startTag.tail.contains 0x3C = false)
    (hat : f.text.hasAt tagStart startTag = true)
    (hfree : (embedded.inString tagStart).isSome = false)
    (hr : f.regionAt endTag false name embedded tagStart (tagStart + startTag.length)
      (tagStart + startTag.length) = .ok r) (hwithin : r.interval.stop ≤ f.hi) :
    f.StackedSections [.embedded name] (addRegion embedded r) := by
  obtain ⟨hkind, hstart, hclear⟩ := regionAt_clear h.sorted hr
  simp only [Bool.false_eq_true, if_false] at hstart
  unfold addRegion
  split
  · exact h
  · rename_i hnonempty
    have hnonempty : r.interval.start < r.interval.stop := by
      simpa [Interval.isEmpty] using hnonempty
    refine h.addMarked hkind hnonempty hwithin ?_ (by rw [hstart]; exact hfree) fun x hx hlt => ?_
    · rw [hstart]
      exact Mark.byteAt_of_head hat hfirst
    · -- no section starts inside the start tag
      refine hclear x hx (Nat.le_of_not_lt fun hin => ?_)
      exact Mark.byteAt_ne_of_tail hat htail (by omega) hin (h.marked (Nat.le_refl _) x hx)

/-- The content of an element joins the sections, if it is not empty.

**Proof sketch.** Empty content is not added. Otherwise the content starts behind the opening tag, so
behind an angle bracket. -/
lemma addRegion_content (h : f.StackedSections (kinds ++ [.embedded name]) embedded)
    (hkinds : kinds ≠ []) (hcode : f.codeStart true pos = some code)
    (hr : f.regionAt endTag true name embedded tagStart pos code = .ok r)
    (hwithin : r.interval.stop ≤ f.hi)
    (hearlier : ∀ x ∈ embedded.intervals, x.kind ∈ kinds ∨ x.stop ≤ pos) :
    f.StackedSections (kinds ++ [.embedded name]) (addRegion embedded r) := by
  obtain ⟨hkind, hstart, hclear⟩ := regionAt_clear h.sorted hr
  simp only [if_true] at hstart
  unfold addRegion
  split
  · exact h
  · rename_i hnonempty
    have hnonempty : r.interval.start < r.interval.stop := by
      simpa [Interval.isEmpty] using hnonempty
    rcases codeStart_cases hcode with ⟨hfalse, -⟩ | ⟨-, -, hhi | ⟨i, hi, hle, hclose⟩⟩
    · cases hfalse
    · omega
    · rw [← hstart] at hi hclear
      refine h.addContent hkinds hkind hnonempty hwithin ?_
        (fun x hx => (hearlier x hx).imp_right fun hx => by omega) hclear
      rwa [← hi, Nat.add_sub_cancel]

end StackedSections

/-- The kinds of sections after one more scan. Sections between marks have to come first, and their
start tag contains an angle bracket at its start only. -/
def kindsAfter (kinds : List IntervalKind) (startTag : Mark) (element : Bool) (name : String) :
    Option (List IntervalKind) :=
  if element then
    if kinds = [] then none else some (kinds ++ [.embedded name])
  else if (kinds = [] ∨ kinds = [.embedded name]) ∧ startTag.head? = some 0x3C ∧
      startTag.tail.contains 0x3C = false then
    some [.embedded name]
  else none

/-- Before a scan nothing of it is there.

**Proof sketch.** By cases on the scan. One more kind at the end of the list permits more. -/
lemma StackedSections.before (h : f.StackedSections kinds embedded)
    (hkinds : kindsAfter kinds startTag element name = some kinds') :
    f.StackedSections kinds' embedded := by
  unfold kindsAfter at hkinds
  split at hkinds
  · split at hkinds
    · cases hkinds
    · rename_i hne
      cases hkinds
      refine h.mono (List.sublist_append_left ..) fun hlength => ?_
      rw [List.length_append] at hlength
      omega
  · split at hkinds
    · rename_i hmarked
      cases hkinds
      rcases hmarked.1 with rfl | rfl
      · exact h.mono (List.nil_sublist _) fun _ => Nat.zero_le _
      · exact h
    · cases hkinds

/-- **One scan for embedded sections.** What it maps is in order with what was there before.

**Proof sketch.** Induction along the sweep. The invariant is that the sections are in order and that
those of the kind that is scanned for end in front of the offset. -/
theorem StackedSections.scan (h : f.StackedSections kinds l.embedded) (hstart : startTag ≠ [])
    (hkinds : kindsAfter kinds startTag element name = some kinds') {harvest : Sweep.Harvest Region}
    (hscan : Sweep.collect (f.regionStep l startTag endTag element name) f.hi f.lo l.embedded =
      .ok harvest) :
    f.StackedSections kinds' (harvest.items.foldl addRegion l.embedded) := by
  have hbefore := h.before hkinds
  refine Sweep.collect_induction
    (I := fun pos embedded harvest => embedded = harvest.items.foldl addRegion l.embedded ∧
      f.StackedSections kinds' embedded ∧
      ∀ x ∈ embedded.intervals, x.kind ∈ kinds ∨ x.stop ≤ pos)
    (Q := fun harvest => f.StackedSections kinds' (harvest.items.foldl addRegion l.embedded))
    ?_ ?_ ⟨rfl, hbefore, fun x hx => .inl (h.kind_mem x hx)⟩ hscan
  · -- a step maps nothing, or one section behind those of its kind
    rintro pos embedded harvest verdict next embedded' ⟨hembedded, hstacked, hearlier⟩ hgo hnext
    obtain ⟨hlt, ⟨rfl, rfl⟩ | ⟨r, start, code, rfl, rfl, hstop, hge, hat, hfree, hcode, hr⟩⟩ :=
      regionStep_go hstart hgo
    · exact ⟨hlt, hembedded, hstacked, fun x hx => (hearlier x hx).imp_right fun hx => by omega⟩
    · refine ⟨hlt, ?_, ?_, fun x hx => ?_⟩
      · rw [Sweep.Harvest.add, IntervalSet.foldl_addRegion_push, hembedded]
      · unfold kindsAfter at hkinds
        split at hkinds
        · rename_i helement
          subst helement
          split at hkinds
          · cases hkinds
          · rename_i hne
            cases hkinds
            exact hstacked.addRegion_content hne hcode hr (by omega)
              fun x hx => (hearlier x hx).imp_right fun hx => by omega
        · rename_i helement
          obtain rfl : element = false := by simpa using helement
          split at hkinds
          · rename_i hmarked
            cases hkinds
            rcases codeStart_cases hcode with ⟨-, rfl⟩ | ⟨htrue, -⟩
            · exact hstacked.addRegion_marked hmarked.2.1 hmarked.2.2 hat hfree hr (by omega)
            · cases htrue
          · cases hkinds
      · unfold addRegion at hx
        split at hx
        · exact (hearlier x hx).imp_right fun hx => by omega
        · rcases IntervalSet.mem_add.mp hx with rfl | hx
          · exact .inr hstop
          · exact (hearlier x hx).imp_right fun hx => by omega
  · rintro pos embedded harvest ⟨rfl, hstacked, -⟩ -
    exact hstacked

end Frame

/-! ### Programs -/

namespace Primitive

/-- The kinds of embedded sections after a primitive, if its scan goes together with the earlier
ones. -/
def sectionKinds (kinds : List IntervalKind) : Primitive → Option (List IntervalKind)
  | .innerSection startTag _ element name _ _ => Frame.kindsAfter kinds startTag element name
  | .embedScope .. | .ifContains .. => none
  | _ => some kinds

/-- The kinds of embedded sections after a program. -/
def sectionKindsAll : List IntervalKind → List Primitive → Option (List IntervalKind)
  | kinds, [] => some kinds
  | kinds, primitive :: rest => (primitive.sectionKinds kinds).bind (sectionKindsAll · rest)

variable {s : Scene} {f : Frame} {p q : Pass} {kinds kinds' : List IntervalKind}
variable {embedded : IntervalSet}

/-- In front of a primitive nothing of its scan is there. -/
lemma stackedSections_before {primitive : Primitive}
    (hkinds : primitive.sectionKinds kinds = some kinds') (h : f.StackedSections kinds embedded) :
    f.StackedSections kinds' embedded := by
  cases primitive with
  | innerSection startTag endTag element name dialect body => exact h.before hkinds
  | embedScope name dialect body => cases hkinds
  | ifContains needle yes no => cases hkinds
  | _ =>
    cases hkinds
    exact h

/-- In front of a program nothing of its scans is there. -/
lemma stackedSections_beforeAll {program : List Primitive}
    (hkinds : sectionKindsAll kinds program = some kinds') (h : f.StackedSections kinds embedded) :
    f.StackedSections kinds' embedded := by
  induction program generalizing kinds with
  | nil =>
    cases hkinds
    exact h
  | cons primitive rest ih =>
    obtain ⟨kinds₁, hkinds₁, hrest⟩ := Option.bind_eq_some_iff.mp hkinds
    exact ih hrest (stackedSections_before hkinds₁ h)

/-- A primitive keeps the embedded sections in order.

**Proof sketch.** Only the scans for embedded sections change the set, and lexing the sections does
not. -/
theorem run_stackedSections {primitive : Primitive}
    (hkinds : primitive.sectionKinds kinds = some kinds')
    (hp : f.StackedSections kinds p.layout.embedded) (h : run s primitive f p = .ok q) :
    f.StackedSections kinds' q.layout.embedded := by
  cases primitive with
  | innerSection startTag endTag element name dialect body =>
    simp only [run] at h
    unfold Pass.mapRegions at h
    split at h
    · cases h
      exact hp.before hkinds
    · rename_i hempty
      obtain ⟨harvest, hharvest, h⟩ := bind_eq_ok.mp h
      rw [← Array.foldlM_toList] at h
      rw [Pass.layout_foldlM (fun p r q hq => by simpa using Pass.layout_delegate hq) h]
      exact hp.scan (by simpa using hempty) hkinds hharvest
  | embedScope name dialect body => cases hkinds
  | ifContains needle yes no => cases hkinds
  | _ =>
    have hlookup : q.layout.sets.lookup .embeddedSections = p.layout.sets.lookup .embeddedSections :=
      run_sort _ f p q rfl h
    have hset : q.layout.embedded = p.layout.embedded := Option.some.inj hlookup
    rw [hset]
    exact stackedSections_before hkinds hp

/-- **Sections along a run.** The scans of a program keep the embedded sections in order, also if the
rest of it is skipped because of a repair.

**Proof sketch.** Induction on the program. -/
theorem runAll_stackedSections {program : List Primitive}
    (hkinds : sectionKindsAll kinds program = some kinds')
    (hp : f.StackedSections kinds p.layout.embedded) (h : runAll s program f p = .ok q) :
    f.StackedSections kinds' q.layout.embedded := by
  induction program generalizing kinds p with
  | nil =>
    simp only [runAll] at h
    cases h
    exact stackedSections_beforeAll hkinds hp
  | cons primitive rest ih =>
    rcases eq_or_of_runAll_cons h with rfl | ⟨p₁, hp₁, h⟩
    · exact stackedSections_beforeAll hkinds hp
    · obtain ⟨kinds₁, hkinds₁, hrest⟩ := Option.bind_eq_some_iff.mp hkinds
      exact ih hrest (run_stackedSections hkinds₁ hp hp₁) h

end Primitive

/-! ### Passes -/

namespace Profile

/-- What holds of the layout after every request to paint a document, full or local, that succeeds. -/
def Leaves (profile : Profile) (doc : Buffer) (P : Layout → Prop) : Prop :=
  (∀ (p p' : Painter) (doc' : Buffer), p.full profile doc = .ok (p', doc') → P p'.layout) ∧
    ∀ (p : Painter) (s : Section) (w : EditWindow) (kind : PassKind) (p' : Painter) (doc' : Buffer),
      p.edit profile doc s w = .ok (kind, p', doc') → P p'.layout

/-- What holds after every pass over a text holds after every request.

**Proof sketch.** A full pass is one pass over the text. An edit is a local pass, or a full one, or
one after the other, all over the same text. -/
lemma leaves_of_runPass {profile : Profile} {doc : Buffer} {P : Layout → Prop}
    (hcommit : ∀ l : Layout, P l → P l.commit)
    (hpass : ∀ (doc₁ : Buffer) (start length : Nat) (detect : Bool) (layout : Layout)
      (nested : IntervalSet) (pass : Pass), doc₁.text = doc.text →
        profile.runPass doc₁ start length detect layout nested = .ok pass → P pass.layout) :
    profile.Leaves doc P := by
  have hfull (p p' : Painter) (doc₁ doc' : Buffer) (htext : doc₁.text = doc.text)
      (h : p.full profile doc₁ = .ok (p', doc')) : P p'.layout := by
    obtain ⟨pass, hrun, h⟩ := bind_eq_ok.mp h
    cases h
    exact hcommit _ (hpass doc₁ _ _ _ _ _ pass htext hrun)
  refine ⟨fun p p' doc' => hfull p p' doc doc' rfl, fun p s w kind p' doc' hedit => ?_⟩
  rcases Painter.edit_eq_ok hedit with ⟨-, h⟩ | ⟨pass, hrun, ⟨-, -, rfl, -⟩ | ⟨reason, -, -, h⟩⟩
  · exact hfull p p' doc doc' rfl h
  · exact hcommit _ (hpass doc _ _ _ _ _ pass rfl hrun)
  · exact hfull _ p' pass.canvas doc' (profile.text_runPass hrun) h

/-- The kinds of the sections that markup embeds, in the order of the scans for them. -/
def embeddedKinds : List IntervalKind :=
  [phpCode, javascript, css].map fun profile => .embedded profile.name

end Profile

/-- The blocks of documentation in a layout: in the order of their starts, two of them apart or with a
common end, and found by the containment query. -/
structure Layout.PodsInOrder (t : Text) (l : Layout) : Prop where
  nonempty : ∀ iv ∈ l.blockComments.intervals, iv.start < iv.stop
  ordered : l.blockComments.intervals.toList.Pairwise
    (t.BlockOrder (Profile.podStarts.map mark))
  found : ∀ pos, (l.blockComments.inString pos).isSome = true ↔ l.blockComments.Covers pos

/-- The embedded sections in a layout: in the order of their starts, two of them apart or the second one
right behind a `>` in a section of an earlier kind. -/
structure Layout.SectionsInOrder (t : Text) (l : Layout) : Prop where
  nonempty : ∀ iv ∈ l.embedded.intervals, iv.start < iv.stop
  ordered : l.embedded.intervals.toList.Pairwise (t.SectionOrder Profile.embeddedKinds)

namespace Profile

variable {doc : Buffer} {start length : Nat} {detect : Bool} {layout : Layout} {nested : IntervalSet}
variable {pass : Pass}

/-- A pass over a Perl text leaves the blocks of documentation in order. -/
lemma podsInOrder_runPass (hdoc : doc.text.Valid)
    (hpass : perl.runPass doc start length detect layout nested = .ok pass) :
    pass.layout.PodsInOrder doc.text :=
  have hstacked := stackedBlocks_perl hdoc hpass
  ⟨hstacked.nonempty, hstacked.ordered, fun _ => IntervalSet.isSome_inString_iff hstacked.nested⟩

/-- The sections after the steps of markup. -/
lemma sectionsInOrder_markup {s : Scene} {f : Frame} {p q : Pass}
    (hp : p.layout.embedded.intervals = #[])
    (h : Primitive.runAll s (Primitive.markup true) f p = .ok q) :
    q.layout.SectionsInOrder f.text := by
  have hkinds : Primitive.sectionKindsAll [] (Primitive.markup true) = some embeddedKinds := by
    decide +kernel
  have hstacked := Primitive.runAll_stackedSections hkinds (f := f) (.of_empty hp) h
  exact ⟨hstacked.nonempty, hstacked.ordered⟩

/-- The only section of a scope that is embedded as a whole.

**Proof sketch.** The set was empty, so it has at most one section. -/
lemma sectionsInOrder_embedScope {s : Scene} {f : Frame} {p q : Pass}
    (hp : p.layout.embedded.intervals = #[])
    (h : Primitive.run s (.embed phpCode) f p = .ok q) : q.layout.SectionsInOrder f.text := by
  have hlayout : q.layout.embedded = _ :=
    congrArg Layout.embedded (Pass.layout_delegate (p := { p with layout := { p.layout with
      embedded := _ } }) h)
  dsimp only at hlayout
  split at hlayout
  · exact ⟨by simp [hlayout, hp], by simp [hlayout, hp]⟩
  · rename_i hnonempty
    have hadd : q.layout.embedded.intervals = #[⟨f.lo, f.hi, .embedded phpCode.name⟩] := by
      rw [hlayout, IntervalSet.add, IntervalSet.insertOrdered, hp]
      rfl
    refine ⟨fun iv hiv => ?_, by simp [hadd]⟩
    obtain rfl : iv = ⟨f.lo, f.hi, .embedded phpCode.name⟩ := by simpa [hadd] using hiv
    simpa [Interval.isEmpty] using hnonempty

/-- A pass over markup leaves the embedded sections in order. -/
lemma sectionsInOrder_runPass {profile : Profile} (hprofile : profile ∈ [html, php])
    (hpass : profile.runPass doc start length detect layout nested = .ok pass) :
    pass.layout.SectionsInOrder doc.text := by
  unfold runPass at hpass
  rcases List.mem_pair.mp hprofile with rfl | rfl
  · exact sectionsInOrder_markup (by rfl) hpass
  · simp only [php] at hpass
    rw [Primitive.runAll_singleton (by rfl)] at hpass
    simp only [Primitive.run] at hpass
    split at hpass
    · exact sectionsInOrder_markup (by rfl) hpass
    · rw [Primitive.runAll_singleton (by rfl)] at hpass
      exact sectionsInOrder_embedScope (by rfl) hpass

end Profile

namespace Painter

/-- **Sets that several scans fill.** After every request over a valid text, full or local, the block
comments of a Perl document are in the order of their starts, and so are the embedded sections of an
HTML or PHP document. Two blocks of documentation do not overlap, or both end together and the one inside
was scanned for earlier; and a block is found wherever there is one. Two embedded sections do not overlap,
or the second one is the content of an element that starts right behind a `>` in a section which was
scanned for earlier. In particular no two sections of one kind overlap, and no PHP section starts in
another section. From a painter whose history is in order both requests succeed.

**Proof sketch.** No scan maps anything that starts inside what the query finds, apart from the contents
of elements, and a section ends where the next one starts. A block that is mapped around an earlier one
ends at the same close mark. -/
theorem pass_overlaps {doc : Buffer} (hdoc : doc.text.Valid) :
    Profile.perl.Leaves doc (Layout.PodsInOrder doc.text) ∧
    (∀ profile ∈ [Profile.html, .php],
      profile.Leaves doc (Layout.SectionsInOrder doc.text)) ∧
    ∀ profile ∈ [Profile.perl, .html, .php], ∀ p : Painter, p.layout.HistoryOrdered →
      (∃ r, p.full profile doc = .ok r) ∧
      ∀ (s : Section) (w : EditWindow), s.Lies doc.text → ∃ r, p.edit profile doc s w = .ok r := by
  refine ⟨?_, fun profile hprofile => ?_, fun profile hprofile p hp => ?_⟩
  · refine Profile.leaves_of_runPass (fun l h => ⟨h.nonempty, h.ordered, h.found⟩) ?_
    intro doc₁ start length detect layout nested pass htext hpass
    rw [← htext] at hdoc ⊢
    exact Profile.podsInOrder_runPass hdoc hpass
  · refine Profile.leaves_of_runPass (fun l h => ⟨h.nonempty, h.ordered⟩) ?_
    intro doc₁ start length detect layout nested pass htext hpass
    rw [← htext]
    exact Profile.sectionsInOrder_runPass hprofile hpass
  · have hsound : profile.Sound := by
      refine Profile.sound_of_mem_builtIn ?_
      simp only [List.mem_cons, List.not_mem_nil, or_false] at hprofile
      rcases hprofile with rfl | rfl | rfl <;> simp [Profile.builtIn]
    obtain ⟨r, hr, -⟩ := full_ensures hsound hdoc hp
    refine ⟨⟨r, hr⟩, fun s w hs => ?_⟩
    obtain ⟨r, hr, -⟩ := edit_ensures hsound hdoc hp hs w
    exact ⟨r, hr⟩

/-- A script behind a PHP section. -/
theorem pass_overlaps_html :
    ∃ p doc', Painter.new.full .html (Buffer.new (Text.ofString "<?= 1 ?><script>a</script>")) =
        .ok (p, doc') ∧
      p.layout.embedded.intervals =
        #[⟨0, 8, .embedded "php-code"⟩, ⟨16, 17, .embedded "javascript"⟩] ∧
      p.layout.SectionsInOrder (Text.ofString "<?= 1 ?><script>a</script>") := by
  have hdoc : (Buffer.new (Text.ofString "<?= 1 ?><script>a</script>")).text.Valid :=
    Text.valid_ofString _
  have hrun : (do
      let r ← Painter.new.full .html (Buffer.new (Text.ofString "<?= 1 ?><script>a</script>"))
      demand (r.1.layout.embedded.intervals = #[Interval.mk 0 8 (.embedded "php-code"),
        Interval.mk 16 17 (.embedded "javascript")]) .outOfRange) = .ok () := by
    decide +kernel
  obtain ⟨⟨p, doc'⟩, hfull, hrun⟩ := bind_eq_ok.mp hrun
  exact ⟨p, doc', hfull, of_decide_eq_true (demand_eq_ok_iff.mp hrun),
    ((pass_overlaps hdoc).2.1 .html (by simp)).1 _ _ _ hfull⟩

/-- Blocks and sections do overlap: the block that `=head` opens goes around the one that `=pod` opens,
and the content of a script starts behind a `>` in a PHP section. -/
theorem overlaps_perl_html :
    (∃ p doc', Painter.new.full .perl (Buffer.new (Text.ofString "=head\n=pod\n=cut\n")) =
        .ok (p, doc') ∧
      p.layout.blockComments.intervals = #[⟨0, 15, .blockComment⟩, ⟨6, 15, .blockComment⟩]) ∧
    ∃ p doc', Painter.new.full .html (Buffer.new (Text.ofString "<script <?= $x->y ?>>")) =
        .ok (p, doc') ∧
      p.layout.embedded.intervals =
        #[⟨8, 20, .embedded "php-code"⟩, ⟨16, 21, .embedded "javascript"⟩] := by
  have hperl : (do
      let r ← Painter.new.full .perl (Buffer.new (Text.ofString "=head\n=pod\n=cut\n"))
      demand (r.1.layout.blockComments.intervals =
        #[Interval.mk 0 15 .blockComment, Interval.mk 6 15 .blockComment]) .outOfRange) = .ok () := by
    decide +kernel
  have hhtml : (do
      let r ← Painter.new.full .html (Buffer.new (Text.ofString "<script <?= $x->y ?>>"))
      demand (r.1.layout.embedded.intervals = #[Interval.mk 8 20 (.embedded "php-code"),
        Interval.mk 16 21 (.embedded "javascript")]) .outOfRange) = .ok () := by
    decide +kernel
  obtain ⟨⟨p, doc'⟩, hfull, hperl⟩ := bind_eq_ok.mp hperl
  obtain ⟨⟨p₁, doc₁⟩, hfull₁, hhtml⟩ := bind_eq_ok.mp hhtml
  exact ⟨⟨p, doc', hfull, of_decide_eq_true (demand_eq_ok_iff.mp hperl)⟩,
    p₁, doc₁, hfull₁, of_decide_eq_true (demand_eq_ok_iff.mp hhtml)⟩

end Painter

end LexPaint
