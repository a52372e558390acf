import LexPaint.Proofs.EnclosedPasses
import LexPaint.Proofs.LocalPasses
import LexPaint.Proofs.SortFrames

set_option relaxedAutoImplicit false
set_option autoImplicit false

/-!
# Sections handed to another language

A pass hands a section of its scope to another profile. That profile maps in the section what it maps
in the text of the section as a document of its own, it paints inside the section only, and the outer
scope goes on as it was.

## Main definitions

* `Delegation`: a section that is handed to a profile, with the pass at that point.
* `Delegation.outcome`, `Delegation.recordsAlone`: the profile in the section and on its own.
* `Delegation.OwnsSection`: the section is lexed as if it were a document.
* `Profile.embeddable`: the profiles that markup embeds.
* `Delegation.Placed`: the borders of the section are where markup puts them.

## Main results

* `Delegation.Placed.ownsSection`: a section between such borders is lexed as if it were a document.
-/

namespace LexPaint

/-- A section of a scope that is handed to a profile. -/
structure Delegation where
  /-- The outer scope. -/
  outer : Frame
  /-- Where the section starts. -/
  lo : Nat
  /-- Where the section ends. -/
  hi : Nat
  /-- The profile of the section. -/
  profile : Profile
  /-- The pass over the outer scope when the section is reached. -/
  before : Pass
deriving Inhabited

/-- Everything that a painter has mapped, inside embedded sections and outside. -/
def Painter.recorded (p : Painter) : List Interval :=
  p.layout.allIntervals ++ p.nested.intervals.toList

namespace Delegation

/-- The pass over the outer scope after the section. -/
def outcome (s : Scene) (call : Delegation) : Checked Pass :=
  call.before.delegate call.outer call.lo call.hi call.profile.dialect
    (Primitive.runAll s call.profile.program)

/-- The text of the section. -/
def text (call : Delegation) : Text :=
  call.outer.text.between call.lo call.hi

/-- What a full pass of the profile maps in the text of the section as a document of its own. -/
def recordsAlone (call : Delegation) : Checked (List Interval) := do
  let (painter, _) ← Painter.new.full call.profile (Buffer.new call.text)
  return painter.recorded

/-- The same at the offset of the section. -/
def recordsInPlace (call : Delegation) : List Interval :=
  (call.recordsAlone.toOption.getD []).map (Interval.shift call.lo)

/-- The section is lexed as if it were a document: the call adds to the nested intervals what a full
pass maps in the text of the section, it paints inside the section only, and the pass over the outer
scope goes on as it was. -/
structure OwnsSection (s : Scene) (call : Delegation) (after : Pass) (alone : List Interval) : Prop where
  outcome : call.outcome s = .ok after
  records : call.recordsAlone = .ok alone
  nested : after.nested.intervals.toList.Perm
    (call.before.nested.intervals.toList ++ alone.map (Interval.shift call.lo))
  text : after.canvas.text = call.before.canvas.text
  outside : ∀ i, i < call.lo ∨ call.hi ≤ i →
    after.canvas.styles[i]? = call.before.canvas.styles[i]?
  layout : after.layout = call.before.layout
  condition : after.condition = call.before.condition
  repair : after.repair = call.before.repair

end Delegation

/-! ### Profiles for sections -/

/-- Whether the marks of the comments keep to one side of the end of a section, and no rule looks in
front of its start. -/
def CommentRules.standsAlone (r : CommentRules) : Bool :=
  decide r.Proper && r.marks.all Mark.keepsApart && r.lineFilter != .notBehindDollar && !r.textBlocks

namespace Profile

/-- The profiles that markup embeds. -/
def embeddable : List Profile :=
  [phpCode, javascript, css]

variable {profile : Profile}

/-- The profiles that markup embeds are built in. -/
lemma builtIn_of_embeddable (h : profile ∈ embeddable) : profile ∈ builtIn := by
  simp only [embeddable, List.mem_cons, List.not_mem_nil, or_false] at h
  rcases h with rfl | rfl | rfl <;> simp [builtIn]

/-- The programs that markup embeds and their comment rules do not look beyond their scope. -/
lemma standsAlone_of_embeddable (h : profile ∈ embeddable) :
    profile.program.all Primitive.standsAlone = true ∧
      profile.dialect.comments.all CommentRules.standsAlone = true := by
  have hall : embeddable.all (fun p => p.program.all Primitive.standsAlone &&
      p.dialect.comments.all CommentRules.standsAlone) = true := by
    decide +kernel
  have := List.all_eq_true.mp hall profile h
  rwa [Bool.and_eq_true] at this

end Profile

/-- A primitive that does not look beyond its scope embeds no section. -/
lemma Primitive.embedsNothing_of_standsAlone {primitive : Primitive}
    (h : primitive.standsAlone = true) : primitive.embedsNothing = true := by
  cases primitive <;> first | rfl | cases h

/-- The programs that markup embeds do not embed sections themselves. -/
lemma Profile.flat_of_embeddable {profile : Profile} (h : profile ∈ embeddable) :
    profile.program.all Primitive.embedsNothing = true :=
  List.all_eq_true.mpr fun primitive hmem => Primitive.embedsNothing_of_standsAlone
    (List.all_eq_true.mp (standsAlone_of_embeddable h).1 primitive hmem)

/-- Comment rules that keep to one side of the end of a section read the section as a text of its
own. -/
lemma CommentRules.encloses {r : CommentRules} (h : r.standsAlone = true) {t u : Text} {lo : Nat}
    (hend : t.SectionEnd (lo + u.size)) : r.Encloses t lo u := by
  simp only [standsAlone, Bool.and_eq_true, decide_eq_true_eq, List.all_eq_true, bne_iff_ne,
    Bool.not_eq_true'] at h
  obtain ⟨⟨⟨hproper, hmarks⟩, hfilter⟩, hblocks⟩ := h
  refine ⟨hproper, fun m hm => hend.fences (hmarks m hm) ?_, hfilter, hblocks⟩
  simp only [marks, List.cons_append, List.nil_append, List.mem_cons] at hm
  rcases hm with rfl | rfl | rfl | hm
  · exact hproper.opener
  · exact hproper.closer
  · simp
  · exact hproper.lineMarks m hm

/-! ### One section -/

namespace Delegation

/-- A section that lies where markup puts it: between two boundaries, not behind a backslash, and in
front of what ends a section. -/
structure Placed (s : Scene) (call : Delegation) : Prop where
  text_eq : call.outer.text = s.text
  ordered : call.lo ≤ call.hi
  loBoundary : s.text.isBoundary call.lo = true
  hiBoundary : s.text.isBoundary call.hi = true
  unescaped : call.lo < call.hi → ∀ i, i + 1 = call.lo → s.text.byteIs (· == backslash) i = false
  ends : s.text.SectionEnd call.hi
  isSealed : Primitive.needsSealAll call.profile.program = true → s.text.Sealed call.hi
  profile_mem : call.profile ∈ Profile.embeddable
  canvas : call.before.canvas.text = s.text
  quiet : call.before.repair = none

/-- The scope that a section becomes. -/
def frame (call : Delegation) : Frame :=
  ⟨call.outer.text, call.lo, call.hi, call.text, call.profile.dialect, false⟩

/-- The pass with which a section starts. -/
def entry (call : Delegation) : Pass :=
  ⟨call.before.canvas, .empty, call.before.nested, .unconditional, call.before.repair⟩

variable {s : Scene} {call : Delegation}

namespace Placed

/-- The scope that a section becomes is in order. -/
lemma wellFormed (h : call.Placed s) (hs : s.WellFormed) : call.frame.WellFormed where
  valid := by
    rw [frame, h.text_eq]
    exact hs.valid
  ordered := h.ordered
  loBoundary := by
    rw [frame, h.text_eq]
    exact h.loBoundary
  hiBoundary := by
    rw [frame, h.text_eq]
    exact h.hiBoundary
  scope_eq := rfl

/-- The scope that a section becomes holds the text of the section. -/
lemma encloses (h : call.Placed s) : call.frame.Encloses call.text := by
  have hsize : call.lo + call.text.size = call.hi := by
    have := Text.le_size_of_isBoundary h.hiBoundary
    have := h.ordered
    rw [Delegation.text, h.text_eq, Text.size_between _ _ (by assumption)]
    omega
  refine ⟨?_, hsize.symm, rfl, fun r hr => ?_⟩
  · rw [frame, Delegation.text, h.text_eq]
    exact Text.encloses_between h.loBoundary h.hiBoundary h.ordered h.unescaped
  · have halone := (Profile.standsAlone_of_embeddable h.profile_mem).2
    rw [show call.profile.dialect.comments = some r from hr] at halone
    refine CommentRules.encloses halone ?_
    rw [frame, h.text_eq]
    exact hsize.symm ▸ h.ends

/-- A section starts with an empty layout and the canvas of the outer scope. -/
lemma fits (h : call.Placed s) : call.entry.Fits call.frame true :=
  ⟨h.canvas.trans h.text_eq.symm, Layout.fits_empty⟩

/-- The profile succeeds in the section. -/
lemma exists_inside (h : call.Placed s) (hs : s.WellFormed) :
    ∃ q, Primitive.runAll s call.profile.program call.frame call.entry = .ok q := by
  obtain ⟨hplain, hsound⟩ := Profile.sound_of_mem_builtIn (Profile.builtIn_of_embeddable h.profile_mem)
  obtain ⟨q, hq, -⟩ := Primitive.runAll_ensures hs _ true call.frame call.entry hsound (h.wellFormed hs)
    h.text_eq.symm hplain (fun hneeds => by
      rw [frame, h.text_eq]
      exact h.isSealed hneeds) h.fits
  exact ⟨q, hq⟩

/-- What is left of a section is what its profile has painted there and mapped there.

**Proof sketch.** The section can be entered, since its borders are boundaries. What remains is the
program in the section, after which the outer layout and condition are put back. -/
lemma outcome_eq (h : call.Placed s) {q : Pass}
    (hq : Primitive.runAll s call.profile.program call.frame call.entry = .ok q) :
    call.outcome s = .ok ⟨q.canvas, call.before.layout, q.layout.allIntervals.foldl .add q.nested,
      call.before.condition, q.repair⟩ := by
  have henter : call.outer.enter call.lo call.hi call.profile.dialect = .ok call.frame := by
    obtain ⟨part, hpart, rfl⟩ := Text.slice_ensures h.ordered (h.text_eq ▸ h.loBoundary)
      (h.text_eq ▸ h.hiBoundary)
    rw [Frame.enter, hpart]
    rfl
  rw [outcome, Pass.delegate, henter]
  show (Primitive.runAll s call.profile.program call.frame call.entry >>= _) = _
  rw [hq]
  rfl

/-- The profile succeeds on the text of the section.

**Proof sketch.** The text of the section is valid, and a sound profile succeeds on every valid text. -/
lemma exists_alone (h : call.Placed s) (hs : s.WellFormed) :
    ∃ q, call.profile.runPass (Buffer.new call.text) 0 call.text.size false .empty .empty = .ok q ∧
      call.recordsAlone = .ok (Painter.new.commit q).recorded := by
  have hvalid : call.text.Valid := by
    rw [Delegation.text, h.text_eq]
    exact Text.valid_between hs.valid h.loBoundary h.hiBoundary h.ordered
  obtain ⟨q, hq, hfull⟩ := Painter.exists_freshPass
    (Profile.sound_of_mem_builtIn (Profile.builtIn_of_embeddable h.profile_mem)) hvalid
  refine ⟨q, hq, ?_⟩
  rw [recordsAlone, hfull]
  rfl

/-- **A section between the borders of markup is lexed as if it were a document.**

**Proof sketch.** The profile succeeds in the section and on its text. Step by step, both runs map the
same up to the offset of the section, and the one in the section paints there only. An embedded profile
embeds nothing, so what it adds to the nested intervals is what its own scope holds in the end. -/
theorem ownsSection (h : call.Placed s) (hs : s.WellFormed) :
    ∃ after alone, call.OwnsSection s after alone := by
  obtain ⟨halone, -⟩ := Profile.standsAlone_of_embeddable h.profile_mem
  obtain ⟨hplain, -⟩ := Profile.sound_of_mem_builtIn (Profile.builtIn_of_embeddable h.profile_mem)
  have hflat := Profile.flat_of_embeddable h.profile_mem
  obtain ⟨q, hq⟩ := h.exists_inside hs
  obtain ⟨q₀, hq₀, hrecords⟩ := h.exists_alone hs
  have hmoved : q.Moved call.lo q₀ := by
    refine Primitive.runAll_moved h.encloses rfl rfl halone ?_ q q₀ hq hq₀
    exact ⟨(Layout.shift_empty call.lo).symm, rfl, by simp, h.quiet, rfl⟩
  have hnested : q.nested = call.entry.nested := Primitive.runAll_nested hflat hq
  have hnested₀ : q₀.nested = IntervalSet.empty := Primitive.runAll_nested hflat hq₀
  have hpainted := Primitive.runAll_within h.encloses (h.wellFormed hs) hplain (h.text_eq ▸ h.ends)
    halone hq
  have halone_eq : (Painter.new.commit q₀).recorded = q₀.layout.allIntervals := by
    show q₀.layout.allIntervals ++ q₀.nested.intervals.toList = _
    rw [hnested₀]
    exact List.append_nil _
  refine ⟨_, _, h.outcome_eq hq, hrecords, ?_, hpainted.text_eq, fun i hi => ?_, rfl, rfl, ?_⟩
  · rw [halone_eq, ← Layout.allIntervals_shift, ← hmoved.layout]
    exact hnested ▸ IntervalSet.foldl_add_perm q.nested q.layout.allIntervals
  · refine hpainted.styles_eq ?_
    show i < max s.start call.lo ∨ min s.stop call.hi ≤ i
    omega
  · exact hmoved.quiet.trans h.quiet.symm

end Placed

end Delegation

end LexPaint
