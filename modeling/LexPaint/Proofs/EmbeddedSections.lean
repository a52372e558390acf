import LexPaint.Proofs.Delegations

set_option relaxedAutoImplicit false
set_option autoImplicit false

/-!
# The embedded sections of a document

Markup hands PHP code, scripts and style sheets to other profiles, and a PHP document without markup
hands itself over as a whole. Every such section ends where the text ends, in front of a `<` or a `?`,
or behind a `>`, and none starts behind a backslash. So each of them is lexed as if it were a document.

## Main definitions

* `Primitive.delegations`, `Primitive.delegationsAll`, `Profile.delegations`: the sections that a run
  hands to another profile, in order.
* `Region.Bordered`: a region between the borders of markup.
* `Pass.Delegates`: what some delegations make of a pass.
* `Primitive.embedsMarked`: the embedding primitives of markup.

## Main results

* `Primitive.run_delegates`, `Primitive.runAll_delegates`: one primitive and a program.
* `Profile.delegations_ownSections`: the sections of HTML and PHP documents.
-/

namespace LexPaint

/-! ### The delegations of a run -/

/-- The delegations that follow a step, none if the step fails. -/
def Delegation.following {α : Type} (x : Checked α) (next : α → List Delegation) : List Delegation :=
  match x with
  | .ok a => next a
  | .error _ => []

/-- The delegations inside a section. -/
def Delegation.inner (call : Delegation) (inside : Frame → Pass → List Delegation) :
    List Delegation :=
  following (call.outer.enter call.lo call.hi call.profile.dialect) fun g => inside g call.entry

/-- A region as it is handed to a profile, with its marks painted. -/
def Region.delegation (s : Scene) (f : Frame) (endTag : Mark) (element : Bool) (profile : Profile)
    (p : Pass) (r : Region) : Delegation :=
  ⟨f, r.codeStart, r.codeStop, profile,
    { p with canvas := Pass.paintRegionMarks s endTag element r p.canvas }⟩

/-- A scope as it is handed to a profile as a whole. -/
def Frame.delegation (f : Frame) (profile : Profile) (p : Pass) : Delegation :=
  let interval : Interval := ⟨f.lo, f.hi, .embedded profile.name⟩
  let embedded :=
    if interval.isEmpty then p.layout.embedded else p.layout.embedded.add interval
  ⟨f, f.lo, f.hi, profile, { p with layout := { p.layout with embedded } }⟩

/-- The delegations for some regions, one after the other. -/
def Pass.regionDelegations (s : Scene) (f : Frame) (endTag : Mark) (element : Bool) (profile : Profile)
    (inside : Frame → Pass → List Delegation) : List Region → Pass → List Delegation
  | [], _ => []
  | r :: rest, p =>
    let call := r.delegation s f endTag element profile p
    call :: call.inner inside ++
      Delegation.following (call.outcome s) (regionDelegations s f endTag element profile inside rest)

namespace Primitive

mutual

/-- The delegations that a primitive makes, those inside sections included. -/
def delegations (s : Scene) : Primitive → Frame → Pass → List Delegation
  | .innerSection startTag endTag element name dialect body, f, p =>
    if startTag.isEmpty then []
    else
      Delegation.following
        (Sweep.collect (f.regionStep p.layout startTag endTag element name) f.hi f.lo
          p.layout.embedded)
        fun harvest =>
          let embedded := harvest.items.foldl Frame.addRegion p.layout.embedded
          Pass.regionDelegations s f endTag element ⟨name, dialect, body⟩ (delegationsAll s body)
            harvest.items.toList { p with layout := { p.layout with embedded } }
  | .embedScope name dialect body, f, p =>
    let call := f.delegation ⟨name, dialect, body⟩ p
    call :: call.inner (delegationsAll s body)
  | .ifContains needle yes no, f, p =>
    if (f.scope.find needle 0 f.scope.size).isSome then delegationsAll s yes f p
    else delegationsAll s no f p
  | _, _, _ => []

/-- The delegations that a program makes until a primitive asks for a full pass. -/
def delegationsAll (s : Scene) : List Primitive → Frame → Pass → List Delegation
  | [], _, _ => []
  | primitive :: rest, f, p =>
    match p.repair with
    | some _ => []
    | none => delegations s primitive f p ++
      Delegation.following (run s primitive f p) (delegationsAll s rest f)

end

variable {s : Scene} {f : Frame} {p : Pass}

/-- A primitive that embeds nothing hands nothing over. -/
lemma delegations_of_flat {primitive : Primitive} (hflat : primitive.embedsNothing = true) :
    delegations s primitive f p = [] := by
  cases primitive <;> first | rfl | cases hflat

/-- A program that embeds nothing hands nothing over. -/
lemma delegationsAll_of_flat {program : List Primitive} (hflat : program.all embedsNothing = true) :
    delegationsAll s program f p = [] := by
  induction program generalizing p with
  | nil => rfl
  | cons primitive rest ih =>
    rw [List.all_cons, Bool.and_eq_true] at hflat
    rw [delegationsAll, delegations_of_flat hflat.1]
    split
    · rfl
    · cases run s primitive f p with
      | error fault => rfl
      | ok q => exact ih hflat.2

end Primitive

/-- The sections that a pass over a section of a document hands to other profiles. -/
def Profile.delegations (profile : Profile) (doc : Buffer) (start length : Nat) (detect : Bool)
    (layout : Layout) (nested : IntervalSet) : List Delegation :=
  Primitive.delegationsAll ⟨doc.text, start, start + length, detect⟩ profile.program
    (.document doc.text profile.dialect)
    ⟨doc.clear start length, layout.reset, nested.reset, .unconditional, none⟩

/-! ### The borders of regions -/

/-- Whether a mark may open a section of markup. -/
def Mark.opensSection (m : Mark) : Bool :=
  m.head? == some 0x3C && m.getLast? != some backslash

/-- Whether a mark may close a section of markup. -/
def Mark.closesSection (m : Mark) : Bool :=
  m.head? == some 0x3C || m.head? == some 0x3F

/-- A region between the borders of markup. -/
structure Region.Bordered (f : Frame) (r : Region) : Prop where
  stop : f.text.SectionEnd r.codeStop
  start : r.interval.start < r.interval.stop → f.text.SectionStart r.interval.start
  unescaped : r.codeStart < r.codeStop →
    ∀ i, i + 1 = r.codeStart → f.text.byteIs (· == backslash) i = false

namespace Text

variable {t : Text} {pos : Nat} {m : Mark} {b : UInt8}

/-- A mark that occurs starts with its first byte. -/
lemma byteAt_of_hasAt_head (hat : t.hasAt pos m = true) (hm : m.head? = some b) :
    t.byteAt pos = some b := by
  cases m with
  | nil => cases hm
  | cons c rest =>
    cases hm
    exact hasAt_iff.mp hat 0 (by simp)

/-- A mark that occurs ends with its last byte. -/
lemma byteAt_of_hasAt_last (hat : t.hasAt pos m = true) {i : Nat} (hi : i + 1 = pos + m.length)
    (hne : m ≠ []) : t.byteAt i = m.getLast? := by
  have hlength := List.length_pos_iff.mpr hne
  have := hasAt_iff.mp hat (m.length - 1) (by omega)
  rw [show pos + (m.length - 1) = i by omega] at this
  rw [this, List.getLast?_eq_getElem?, List.getElem?_eq_getElem]

/-- A section does not end behind the text. -/
lemma SectionEnd.le_size (h : t.SectionEnd pos) : pos ≤ t.size := by
  rcases h with rfl | h | ⟨i, rfl, h⟩
  · exact Nat.le_refl _
  · exact Nat.le_of_lt (lt_size_of_byteIs h)
  · exact lt_size_of_byteIs h

/-- Where a section starts, another one may end. -/
lemma SectionStart.sectionEnd (h : t.SectionStart pos) : t.SectionEnd pos := by
  rcases h with h | ⟨i, hi, h⟩
  · exact .inr (.inl (byteIs_iff.mpr ⟨_, h, rfl⟩))
  · exact .inr (.inr ⟨i, hi, byteIs_eq_iff.mpr h⟩)

/-- A section may end in front of a mark that closes one. -/
lemma sectionEnd_of_hasAt (hm : m.closesSection = true) (hat : t.hasAt pos m = true) :
    t.SectionEnd pos := by
  refine .inr (.inl ?_)
  simp only [Mark.closesSection, Bool.or_eq_true, beq_iff_eq] at hm
  rcases hm with hm | hm <;> exact byteIs_iff.mpr ⟨_, byteAt_of_hasAt_head hat hm, rfl⟩

end Text

/-- A mark that opens a section starts with `<`. -/
lemma Mark.byteAt_of_opens {m : Mark} (h : m.opensSection = true) {t : Text} {pos : Nat}
    (hat : t.hasAt pos m = true) : t.byteAt pos = some 0x3C := by
  rw [opensSection, Bool.and_eq_true, beq_iff_eq] at h
  exact Text.byteAt_of_hasAt_head hat h.1

/-- A mark that opens a section is not empty. -/
lemma Mark.ne_nil_of_opens {m : Mark} (h : m.opensSection = true) : m ≠ [] := by
  rintro rfl
  cases h

namespace Frame

variable {f : Frame} {l : Layout} {startTag endTag : Mark} {element : Bool} {name : String}

/-- The embedded sections that were mapped so far start where sections of markup start, apart from one
that the scope starts with. -/
def EmbeddedStarts (f : Frame) (embedded : IntervalSet) : Prop :=
  ∀ iv ∈ embedded.intervals, f.lo < iv.start → f.text.SectionStart iv.start

/-- Mapping a region between the borders of markup keeps the starts where they may be: the region
starts with its start tag. -/
lemma EmbeddedStarts.addRegion {embedded : IntervalSet} (he : f.EmbeddedStarts embedded) {r : Region}
    (hr : r.Bordered f) : f.EmbeddedStarts (addRegion embedded r) := by
  unfold Frame.addRegion
  split
  · exact he
  · rename_i hnonempty
    intro iv hiv hlo
    rcases IntervalSet.mem_add.mp hiv with rfl | hiv
    · exact hr.start (by simpa [Interval.isEmpty] using hnonempty)
    · exact he iv hiv hlo

/-- Mapping several such regions does so, too. -/
lemma EmbeddedStarts.foldl_addRegion {embedded : IntervalSet} (he : f.EmbeddedStarts embedded)
    {regions : Array Region} (hregions : ∀ r ∈ regions, r.Bordered f) :
    f.EmbeddedStarts (regions.foldl Frame.addRegion embedded) := by
  rw [← Array.foldl_toList]
  have hlist : ∀ r ∈ regions.toList, r.Bordered f := fun r hr => hregions r (Array.mem_toList_iff.mp hr)
  generalize regions.toList = found at hlist
  induction found generalizing embedded with
  | nil => exact he
  | cons r rest ih =>
    exact ih (he.addRegion (hlist r (List.mem_cons_self ..)))
      fun r' hr' => hlist r' (List.mem_cons_of_mem _ hr')

/-- Code starts behind the start tag, behind the `>` of an opening tag, or at the end of the scope.

**Proof sketch.** The program is unfolded. Without an element the code starts behind the start tag.
With one it starts behind the `>` that is found next, or nowhere in the scope. -/
lemma codeStart_cases {tagStop code : Nat} (h : f.codeStart element tagStop = some code) :
    element = false ∧ code = tagStop ∨
      element = true ∧ tagStop < f.hi ∧
        (code = f.hi ∨ ∃ i, i + 1 = code ∧ tagStop ≤ i ∧ f.text.byteAt i = some 0x3E) := by
  unfold codeStart at h
  split at h
  · rename_i helement
    refine .inr ⟨helement, ?_⟩
    split at h
    · rename_i hlt
      refine ⟨hlt, ?_⟩
      split at h
      · rename_i hclose
        cases h
        exact .inr ⟨tagStop, rfl, Nat.le_refl _, Text.byteIs_eq_iff.mp hclose⟩
      · split at h
        · cases h
          cases hend : openingTagEnd f.text tagStop f.hi with
          | none => exact .inl rfl
          | some stop =>
            obtain ⟨h1, -, h2⟩ := openingTagEnd_bounds hend
            exact .inr ⟨stop - 1, by show _ = stop; omega, by omega, h2⟩
        · cases h
    · cases h
  · rename_i helement
    cases h
    exact .inl ⟨by simpa using helement, rfl⟩

/-- The region behind a start tag lies between the borders of markup.

**Proof sketch.** The code of a region ends in front of the end tag, where the next known section
starts, or with the scope. Each is an end of a section. It starts behind the start tag or behind the
`>` of an opening tag, so not behind a backslash. -/
lemma regionAt_bordered (hhi : f.hi = f.text.size) (hstart : startTag.opensSection = true)
    (hend : endTag.closesSection = true) {embedded : IntervalSet} (he : f.EmbeddedStarts embedded)
    {start code : Nat} (hlo : f.lo ≤ start) (hat : f.text.hasAt start startTag = true)
    (hcode : f.codeStart element (start + startTag.length) = some code) {r : Region}
    (h : f.regionAt endTag element name embedded start (start + startTag.length) code = .ok r) :
    r.Bordered f := by
  have hlength := List.length_pos_iff.mpr (Mark.ne_nil_of_opens hstart)
  have hbehind : f.lo < code := by
    rcases codeStart_cases hcode with ⟨-, rfl⟩ | ⟨-, hlt, rfl | ⟨i, rfl, hi, -⟩⟩ <;> omega
  obtain ⟨_, hrange, h⟩ := bind_eq_ok.mp h
  -- the code is cut off where the next known section starts, or where the text ends
  have hlimit : f.text.SectionEnd (((embedded.firstFrom code).map Interval.start).getD f.hi) := by
    have hle := (Text.isBoundary_of_checkRange hrange).1
    cases hfirst : embedded.firstFrom code with
    | none => exact .inl hhi
    | some iv =>
      rw [hfirst] at hle
      exact (he iv (Array.mem_of_getElem? hfirst) (Nat.lt_of_lt_of_le hbehind hle)).sectionEnd
  have hstop : f.text.SectionEnd r.codeStop := by
    cases h
    cases hclose : f.text.find endTag code
        (((embedded.firstFrom code).map Interval.start).getD f.hi) with
    | none => exact hlimit
    | some i => exact Text.sectionEnd_of_hasAt hend (Text.find_bounds hclose).2.2
  cases h
  rcases codeStart_cases hcode with ⟨rfl, rfl⟩ | ⟨rfl, -, rfl | ⟨i, rfl, -, hi⟩⟩
  · refine ⟨hstop, fun _ => .inl (Mark.byteAt_of_opens hstart hat), fun _ i hi => ?_⟩
    have hlast := Text.byteAt_of_hasAt_last hat hi (Mark.ne_nil_of_opens hstart)
    rw [Mark.opensSection, Bool.and_eq_true, bne_iff_ne] at hstart
    exact Bool.eq_false_iff.mpr fun hback =>
      hstart.2 (hlast.symm.trans (Text.byteIs_eq_iff.mp hback))
  · have := hstop.le_size
    refine ⟨hstop, fun hlt => ?_, fun hlt => ?_⟩
    all_goals
      simp only [if_true] at hlt this
      omega
  · refine ⟨hstop, fun _ => .inr ⟨i, rfl, hi⟩, fun _ j hj => ?_⟩
    obtain rfl : j = i := by
      dsimp only at hj
      omega
    refine Bool.eq_false_iff.mpr fun hback => ?_
    rw [Text.byteIs_eq_iff, hi] at hback
    cases hback

/-- One step of a sweep for regions keeps the sections between the borders of markup. -/
lemma regionStep_bordered (hhi : f.hi = f.text.size) (hstart : startTag.opensSection = true)
    (hend : endTag.closesSection = true) {pos next : Nat} {embedded embedded' : IntervalSet}
    {verdict : Sweep.Verdict Region} (hlo : f.lo ≤ pos) (he : f.EmbeddedStarts embedded)
    (h : f.regionStep l startTag endTag element name pos embedded = .ok (.go verdict next embedded')) :
    (f.lo ≤ next ∧ f.EmbeddedStarts embedded') ∧ ∀ r, verdict = .accepted r → r.Bordered f := by
  obtain ⟨_, -, h⟩ := bind_eq_ok.mp h
  split at h
  · cases h
  · rename_i start hfind
    obtain ⟨h1, h2, hat⟩ := Text.find_bounds hfind
    dsimp only at h
    split at h
    · cases h
      exact ⟨⟨by omega, he⟩, by simp⟩
    · split at h
      · cases h
        exact ⟨⟨by omega, he⟩, by simp⟩
      · rename_i code hcode
        obtain ⟨r, hr, h⟩ := bind_eq_ok.mp h
        cases h
        have hbordered := regionAt_bordered hhi hstart hend he (by omega) hat hcode hr
        refine ⟨⟨by omega, he.addRegion hbordered⟩, fun r' hr' => ?_⟩
        cases hr'
        exact hbordered

/-- The regions that a sweep maps lie between the borders of markup. -/
lemma regions_bordered (hhi : f.hi = f.text.size) (hstart : startTag.opensSection = true)
    (hend : endTag.closesSection = true) (he : f.EmbeddedStarts l.embedded)
    {harvest : Sweep.Harvest Region}
    (h : Sweep.collect (f.regionStep l startTag endTag element name) f.hi f.lo l.embedded =
      .ok harvest) : ∀ r ∈ harvest.items, r.Bordered f :=
  Sweep.forall_mem_collect (J := fun pos embedded => f.lo ≤ pos ∧ f.EmbeddedStarts embedded)
    (fun _ _ _ _ _ hJ hgo => regionStep_bordered hhi hstart hend hJ.1 hJ.2 hgo)
    ⟨Nat.le_refl _, he⟩ h

end Frame

/-! ### One delegation after the other -/

/-- What some delegations from one scope make of a pass: each owns its section, and if the pass goes on,
it has the property `Q`, and its nested intervals are those from before and what the sections add. -/
structure Pass.Delegates (s : Scene) (f : Frame) (calls : List Delegation) (before : IntervalSet)
    (x : Checked Pass) (Q : Pass → Prop) : Prop where
  owns : ∀ call ∈ calls, call.outer = f ∧ call.profile ∈ Profile.embeddable ∧
    ∃ after alone, call.OwnsSection s after alone
  result : ∀ q, x = .ok q → Q q
  nested : ∀ q, x = .ok q → q.nested.intervals.toList.Perm
    (before.intervals.toList ++ calls.flatMap Delegation.recordsInPlace)

/-- If no program hands anything over inside a section, the section has no delegations inside. -/
lemma Delegation.inner_eq_nil {call : Delegation} {inside : Frame → Pass → List Delegation}
    (hinside : ∀ g q, inside g q = []) : call.inner inside = [] := by
  unfold inner
  cases call.outer.enter call.lo call.hi call.profile.dialect with
  | error fault => rfl
  | ok g => exact hinside g call.entry

namespace Pass.Delegates

variable {s : Scene} {f : Frame} {before : IntervalSet} {x : Checked Pass} {Q R : Pass → Prop}
  {calls : List Delegation}

/-- A step that hands nothing over. -/
lemma nil (h : ∀ q, x = .ok q → Q q ∧ q.nested = before) : Delegates s f [] before x Q where
  owns := by simp
  result q hq := (h q hq).1
  nested q hq := by
    rw [(h q hq).2]
    simp

/-- A step that hands one section over.

**Proof sketch.** A placed section is owned by its profile (`Delegation.Placed.ownsSection`), and its
outcome is determined. -/
lemma single (hs : s.WellFormed) {call : Delegation} (h : call.Placed s) :
    Delegates s call.outer [call] call.before.nested (call.outcome s) fun q =>
      q.layout = call.before.layout ∧ q.canvas.text = call.before.canvas.text ∧ q.repair = none := by
  obtain ⟨after, alone, howns⟩ := h.ownsSection hs
  have hafter : ∀ q, call.outcome s = .ok q → q = after := fun q hq =>
    Except.ok.inj (hq.symm.trans howns.outcome)
  refine ⟨fun call' hcall => ?_, fun q hq => ?_, fun q hq => ?_⟩
  · obtain rfl := List.mem_singleton.mp hcall
    exact ⟨rfl, h.profile_mem, after, alone, howns⟩
  · rw [hafter q hq]
    exact ⟨howns.layout, howns.text, howns.repair.trans h.quiet⟩
  · rw [hafter q hq, List.flatMap_singleton, Delegation.recordsInPlace, howns.records]
    exact howns.nested

/-- What is known of the pass afterwards may be weakened. -/
lemma mono (h : Delegates s f calls before x Q) (hQ : ∀ q, Q q → R q) :
    Delegates s f calls before x R :=
  ⟨h.owns, fun q hq => hQ q (h.result q hq), h.nested⟩

/-- Steps one after the other.

**Proof sketch.** If the first step fails, nothing follows it. Otherwise the delegations of both
steps are listed one after the other, and so is what they add to the nested intervals. -/
lemma bind (h : Delegates s f calls before x Q) {next : Pass → List Delegation}
    {g : Pass → Checked Pass} (hnext : ∀ q, Q q → Delegates s f (next q) q.nested (g q) R) :
    Delegates s f (calls ++ Delegation.following x next) before (x >>= g) R := by
  cases x with
  | error fault =>
    refine ⟨?_, fun q hq => (nomatch hq), fun q hq => (nomatch hq)⟩
    rw [show Delegation.following (.error fault) next = [] from rfl, List.append_nil]
    exact h.owns
  | ok q =>
    obtain ⟨howns, hresult, hnested⟩ := hnext q (h.result q rfl)
    refine ⟨fun call hcall => ?_, hresult, fun q' hq' => ?_⟩
    · rcases List.mem_append.mp hcall with hcall | hcall
      · exact h.owns call hcall
      · exact howns call hcall
    · refine (hnested q' hq').trans ?_
      rw [List.flatMap_append, ← List.append_assoc]
      exact (h.nested q rfl).append_right _

end Pass.Delegates

/-- What a pass over a document knows of its embedded sections. -/
structure Pass.Bordered (f : Frame) (opened : Bool) (p : Pass) : Prop where
  text : p.canvas.text = f.text
  fits : f.EmbeddedFits opened p.layout.embedded
  starts : f.EmbeddedStarts p.layout.embedded

/-- A set that may start with a section that is still open fits in any case. -/
lemma Frame.EmbeddedFits.weaken {f : Frame} {opened opened' : Bool} {embedded : IntervalSet}
    (h : f.EmbeddedFits opened embedded) (ho : opened' = true → opened = true) :
    f.EmbeddedFits opened' embedded :=
  ⟨h.fits, h.boundary, fun h' => h.sealed (ho h')⟩

namespace Pass

variable {s : Scene} {d : Dialect} {p : Pass} {profile : Profile} {opened : Bool}

/-- A region between the borders of markup is handed to a profile as a section that lies where markup puts
it. -/
lemma placed_delegation (hprofile : profile ∈ Profile.embeddable) {startTag endTag : Mark}
    {element : Bool}
    (hseal : Primitive.needsSealAll profile.program = true → opened = true ∧ endTag.StartsSealed)
    {r : Region} (hr : Frame.RegionFound (.document s.text d) startTag endTag element opened r)
    (hborders : r.Bordered (.document s.text d)) (htext : p.canvas.text = s.text)
    (hquiet : p.repair = none) :
    (r.delegation s (.document s.text d) endTag element profile p).Placed s := by
  refine ⟨rfl, hr.fits.codeStart_le, hr.fits.codeStartBoundary, hr.fits.codeStopBoundary,
    hborders.unescaped, hborders.stop, fun hneeds => ?_, hprofile,
    (text_paintRegionMarks ..).trans htext, hquiet⟩
  obtain ⟨ho, hend⟩ := hseal hneeds
  exact hr.sealedStop ho hend s.text.sealed_size

/-- Regions between the borders of markup that are handed to a profile one after the other.

**Proof sketch.** Induction on the regions. Each is placed between the borders of markup, and the
outer pass goes on from its outcome. -/
lemma regions_delegate (hs : s.WellFormed) (hprofile : profile ∈ Profile.embeddable)
    {startTag endTag : Mark} {element : Bool} {inside : Frame → Pass → List Delegation}
    (hinside : ∀ g q, inside g q = [])
    (hseal : Primitive.needsSealAll profile.program = true → opened = true ∧ endTag.StartsSealed)
    {regions : List Region}
    (hfound : ∀ r ∈ regions,
      Frame.RegionFound (.document s.text d) startTag endTag element opened r ∧
        r.Bordered (.document s.text d))
    (htext : p.canvas.text = s.text) (hquiet : p.repair = none) :
    Delegates s (.document s.text d)
      (regionDelegations s (.document s.text d) endTag element profile inside regions p) p.nested
      (regions.foldlM
        (fun p r => (r.delegation s (.document s.text d) endTag element profile p).outcome s) p)
      fun q => q.layout = p.layout ∧ q.canvas.text = s.text := by
  induction regions generalizing p with
  | nil =>
    refine .nil fun q hq => ?_
    cases hq
    exact ⟨⟨rfl, htext⟩, rfl⟩
  | cons r rest ih =>
    obtain ⟨hr, hborders⟩ := hfound r (List.mem_cons_self ..)
    rw [regionDelegations, List.foldlM_cons]
    have hplaced := placed_delegation hprofile hseal hr hborders htext hquiet
    rw [Delegation.inner_eq_nil hinside]
    refine (Delegates.single hs hplaced).bind fun q hq => ?_
    obtain ⟨hlayout, hqtext, hqquiet⟩ := hq
    have hrest := ih (fun r hr => hfound r (List.mem_cons_of_mem _ hr)) (hqtext.trans hplaced.canvas)
      hqquiet
    exact hrest.mono fun q' hq' => ⟨hq'.1.trans hlayout, hq'.2⟩

/-- A scope that is handed to a profile as a whole.

**Proof sketch.** A document is placed as a section of its own: nothing stands in front of it, and it
ends with the text. -/
lemma embedScope_delegates (hs : s.WellFormed) (hprofile : profile ∈ Profile.embeddable)
    {inside : Frame → Pass → List Delegation} (hinside : ∀ g q, inside g q = [])
    (hp : p.Bordered (.document s.text d) opened) (hquiet : p.repair = none) :
    Delegates s (.document s.text d)
      ((Frame.document s.text d).delegation profile p ::
        ((Frame.document s.text d).delegation profile p).inner inside) p.nested
      (((Frame.document s.text d).delegation profile p).outcome s)
      (Bordered (.document s.text d) false) := by
  have hplaced : ((Frame.document s.text d).delegation profile p).Placed s :=
    ⟨rfl, Nat.zero_le _, Text.isBoundary_zero _, Text.isBoundary_size _,
      fun _ i hi => absurd hi (Nat.succ_ne_zero i), .inl rfl, fun _ => s.text.sealed_size, hprofile,
      hp.text, hquiet⟩
  rw [Delegation.inner_eq_nil hinside]
  refine (Delegates.single hs hplaced).mono fun q hq => ?_
  obtain ⟨hlayout, htext, -⟩ := hq
  have hweak : (Frame.document s.text d).EmbeddedFits false p.layout.embedded := hp.fits.weaken (by simp)
  refine ⟨htext.trans hp.text, ?_, ?_⟩ <;> rw [hlayout] <;> dsimp only [Frame.delegation] <;> split
  · exact hweak
  · exact hweak.add ⟨Nat.le_refl _, Nat.zero_le _, Nat.le_refl _⟩ (Text.isBoundary_zero _) (by simp)
  · exact hp.starts
  · intro iv hiv hlo
    rcases IntervalSet.mem_add.mp hiv with rfl | hiv
    · exact absurd hlo (Nat.lt_irrefl _)
    · exact hp.starts iv hiv hlo

end Pass

namespace Primitive

mutual

/-- The primitives of markup, as far as they embed: sections stand between marks that may open and
close one, and their profiles are embeddable. -/
def embedsMarked : Primitive → Prop
  | .innerSection startTag endTag _ name dialect body =>
    startTag.opensSection = true ∧ endTag.closesSection = true ∧
      ⟨name, dialect, body⟩ ∈ Profile.embeddable
  | .embedScope name dialect body => ⟨name, dialect, body⟩ ∈ Profile.embeddable
  | .ifContains _ yes no => embedsMarkedAll yes ∧ embedsMarkedAll no
  | _ => True

/-- Every embedding primitive of a program is one of markup. -/
def embedsMarkedAll : List Primitive → Prop
  | [] => True
  | primitive :: rest => embedsMarked primitive ∧ embedsMarkedAll rest

end

variable {s : Scene} {d : Dialect} {opened : Bool} {p : Pass}

/-- A primitive that embeds nothing.

**Proof sketch.** Nothing is handed over, and the set of embedded sections stays as it is. -/
lemma delegates_of_flat {primitive : Primitive} (hflat : primitive.embedsNothing = true)
    (hp : p.Bordered (.document s.text d) opened) :
    Pass.Delegates s (.document s.text d) (delegations s primitive (.document s.text d) p) p.nested
      (run s primitive (.document s.text d) p)
      (Pass.Bordered (.document s.text d) (opened && keepsOpened primitive)) := by
  rw [delegations_of_flat hflat]
  refine .nil fun q hq => ⟨?_, run_nested hflat hq⟩
  have hsort : mapsSort .embeddedSections primitive = false := by
    cases primitive <;> first | rfl | cases hflat
  have hembedded : q.layout.embedded = p.layout.embedded :=
    embedded_of_run hq hsort
  refine ⟨(run_continues primitive _ p q hq).painted.text_eq.trans hp.text, ?_, ?_⟩ <;> rw [hembedded]
  · exact hp.fits.weaken fun ho => (Bool.and_eq_true_iff.mp ho).1
  · exact hp.starts

/-- What a sweep for regions between two marks of markup finds, and what the pass knows of its embedded
sections then.

**Proof sketch.** What a sweep for regions ensures is known from the safety of passes
(`Frame.regions_ensures`). That the regions lie between the borders of markup is added here
(`Frame.regions_bordered`). -/
lemma innerSection_found (hs : s.WellFormed) {startTag endTag : Mark} {element : Bool}
    {name : String} {dialect : Dialect} {body : List Primitive}
    (hsound : sound opened (.innerSection startTag endTag element name dialect body) = true)
    (hmarked : embedsMarked (.innerSection startTag endTag element name dialect body))
    (hp : p.Bordered (.document s.text d) opened) {opened' : Bool}
    (hopened' :
      (opened && keepsOpened (.innerSection startTag endTag element name dialect body)) = opened')
    {harvest : Sweep.Harvest Region}
    (hcollect : Sweep.collect
      ((Frame.document s.text d).regionStep p.layout startTag endTag element name)
      (Frame.document s.text d).hi (Frame.document s.text d).lo p.layout.embedded = .ok harvest) :
    (∀ r ∈ harvest.items.toList,
      Frame.RegionFound (.document s.text d) startTag endTag element opened' r ∧
        r.Bordered (.document s.text d)) ∧
    (needsSealAll body = true → opened' = true ∧ endTag.StartsSealed) ∧
    Frame.EmbeddedFits (.document s.text d) opened'
      (harvest.items.foldl Frame.addRegion p.layout.embedded) ∧
    Frame.EmbeddedStarts (.document s.text d)
      (harvest.items.foldl Frame.addRegion p.layout.embedded) := by
  obtain ⟨hstart, hend, -⟩ := hmarked
  simp only [sound, Bool.and_eq_true, Bool.or_eq_true, decide_eq_true_eq, Bool.not_eq_true'] at hsound
  obtain ⟨⟨⟨⟨hstartPlain, hendPlain⟩, -⟩, -⟩, hneeds⟩ := hsound
  -- all sections start sealed only if those before do and these are mapped with their marks
  have hopens : opened' = true → opened = true ∧ element = false ∧ startTag.StartsSealed := by
    rintro rfl
    simpa [keepsOpened] using hopened'
  have hfits := hp.fits.weaken fun ho => (hopens ho).1
  obtain ⟨-, hfound, hembedded⟩ := (Frame.regions_ensures (Frame.wellFormed_document hs.valid d)
    p.layout hstartPlain hendPlain name (fun ho => (hopens ho).2) hfits).elim hcollect
  have hborders := Frame.regions_bordered rfl hstart hend hp.starts hcollect
  refine ⟨fun r hr => ⟨hfound r (Array.mem_toList_iff.mp hr), hborders r (Array.mem_toList_iff.mp hr)⟩,
    fun hbody => ?_, hembedded, hp.starts.foldl_addRegion hborders⟩
  rcases hneeds with h | ⟨⟨⟨ho, helement⟩, hss⟩, hes⟩
  · rw [hbody] at h
    cases h
  · refine ⟨?_, hes⟩
    rw [← hopened', ho]
    simp [keepsOpened, helement, hss]

/-- Regions between two marks of markup.

**Proof sketch.** The sweep finds regions between the borders of markup (`innerSection_found`), and
these are handed over one after the other (`Pass.regions_delegate`). -/
lemma innerSection_delegates (hs : s.WellFormed) {startTag endTag : Mark} {element : Bool}
    {name : String} {dialect : Dialect} {body : List Primitive}
    (hsound : sound opened (.innerSection startTag endTag element name dialect body) = true)
    (hmarked : embedsMarked (.innerSection startTag endTag element name dialect body))
    (hp : p.Bordered (.document s.text d) opened) (hquiet : p.repair = none) :
    Pass.Delegates s (.document s.text d)
      (delegations s (.innerSection startTag endTag element name dialect body) (.document s.text d) p)
      p.nested
      (run s (.innerSection startTag endTag element name dialect body) (.document s.text d) p)
      (Pass.Bordered (.document s.text d)
        (opened && keepsOpened (.innerSection startTag endTag element name dialect body))) := by
  generalize hopened' :
    (opened && keepsOpened (.innerSection startTag endTag element name dialect body)) = opened'
  have hprofile := hmarked.2.2
  have hnonempty : startTag.isEmpty = false := by
    simpa using Mark.ne_nil_of_opens hmarked.1
  rw [delegations, run, Pass.mapRegions, hnonempty, if_neg Bool.false_ne_true, if_neg Bool.false_ne_true]
  cases hcollect : Sweep.collect
      ((Frame.document s.text d).regionStep p.layout startTag endTag element name)
      (Frame.document s.text d).hi (Frame.document s.text d).lo p.layout.embedded with
  -- then nothing is handed over, and the pass fails
  | error fault => exact .nil fun q hq => nomatch hq
  | ok harvest =>
    obtain ⟨hregions, hseal, hembedded, hstarts⟩ :=
      innerSection_found hs hsound hmarked hp hopened' hcollect
    show Pass.Delegates s (.document s.text d) (Pass.regionDelegations s _ endTag element
        ⟨name, dialect, body⟩ (delegationsAll s body) harvest.items.toList _) p.nested
      (harvest.items.foldlM _ _) _
    rw [← Array.foldlM_toList]
    refine (Pass.regions_delegate (p := { p with layout := { p.layout with
      embedded := harvest.items.foldl Frame.addRegion p.layout.embedded } }) hs hprofile
      (fun _ _ => delegationsAll_of_flat (Profile.flat_of_embeddable hprofile)) hseal hregions hp.text
      hquiet).mono fun q hq => ?_
    exact ⟨hq.2, hq.1 ▸ hembedded, hq.1 ▸ hstarts⟩

mutual

/-- A primitive of markup hands sections over that are lexed as if they were documents.

**Proof sketch.** One case for each embedding primitive; the others hand nothing over and leave the
embedded sections as they are. -/
theorem run_delegates (hs : s.WellFormed) :
    ∀ (primitive : Primitive) (opened : Bool) (p : Pass), sound opened primitive = true →
      embedsMarked primitive → p.Bordered (.document s.text d) opened → p.repair = none →
      Pass.Delegates s (.document s.text d) (delegations s primitive (.document s.text d) p) p.nested
        (run s primitive (.document s.text d) p)
        (Pass.Bordered (.document s.text d) (opened && keepsOpened primitive))
  | .innerSection .., _, _, hsound, hmarked, hp, hquiet =>
    innerSection_delegates hs hsound hmarked hp hquiet
  | .embedScope name dialect body, opened, p, _, hmarked, hp, hquiet => by
    have hprofile : (⟨name, dialect, body⟩ : Profile) ∈ Profile.embeddable := hmarked
    rw [show (opened && keepsOpened (.embedScope name dialect body)) = false from Bool.and_false _]
    exact Pass.embedScope_delegates hs hprofile
      (fun _ _ => delegationsAll_of_flat (Profile.flat_of_embeddable hprofile)) hp hquiet
  | .ifContains needle yes no, opened, p, hsound, hmarked, hp, hquiet => by
    simp only [sound, Bool.and_eq_true] at hsound
    rw [show (opened && keepsOpened (.ifContains needle yes no)) = false from Bool.and_false _,
      delegations, run]
    split
    · exact runAll_delegates hs yes opened p hsound.1 hmarked.1 hp
    · exact runAll_delegates hs no opened p hsound.2 hmarked.2 hp
  | .setCondition _, _, _, _, _, hp, _ => delegates_of_flat rfl hp
  | .quotes _, _, _, _, _, hp, _ => delegates_of_flat rfl hp
  | .lineComments _, _, _, _, _, hp, _ => delegates_of_flat rfl hp
  | .blockComments .., _, _, _, _, hp, _ => delegates_of_flat rfl hp
  | .keywords .., _, _, _, _, hp, _ => delegates_of_flat rfl hp
  | .extensibleKeyword .., _, _, _, _, hp, _ => delegates_of_flat rfl hp
  | .signedVariable .., _, _, _, _, hp, _ => delegates_of_flat rfl hp
  | .marks .., _, _, _, _, hp, _ => delegates_of_flat rfl hp
  | .heredocs, _, _, _, _, hp, _ => delegates_of_flat rfl hp
  | .quoteOperators, _, _, _, _, hp, _ => delegates_of_flat rfl hp
  | .tags, _, _, _, _, hp, _ => delegates_of_flat rfl hp

/-- A program of markup hands sections over that are lexed as if they were documents.

**Proof sketch.** Induction on the program. A repair ends it, and then nothing more is handed over. -/
theorem runAll_delegates (hs : s.WellFormed) :
    ∀ (program : List Primitive) (opened : Bool) (p : Pass), soundAll opened program = true →
      embedsMarkedAll program → p.Bordered (.document s.text d) opened →
      Pass.Delegates s (.document s.text d) (delegationsAll s program (.document s.text d) p) p.nested
        (runAll s program (.document s.text d) p) (Pass.Bordered (.document s.text d) false)
  | [], _, p, _, _, hp => by
    refine .nil fun q hq => ?_
    cases hq
    exact ⟨⟨hp.text, hp.fits.weaken (by simp), hp.starts⟩, rfl⟩
  | primitive :: rest, opened, p, hsound, hmarked, hp => by
    simp only [soundAll, Bool.and_eq_true] at hsound
    rw [delegationsAll]
    cases hrepair : p.repair with
    | some reason =>
      rw [runAll_of_repair hrepair]
      refine .nil fun q hq => ?_
      cases hq
      exact ⟨⟨hp.text, hp.fits.weaken (by simp), hp.starts⟩, rfl⟩
    | none =>
      rw [runAll_cons hrepair]
      exact (run_delegates hs primitive opened p hsound.1 hmarked.1 hp hrepair).bind
        fun q hq => runAll_delegates hs rest _ q hsound.2 hmarked.2 hq

end

end Primitive

/-! ### HTML and PHP documents -/

namespace Profile

variable {profile : Profile}

/-- The programs of HTML and PHP embed between marks of markup only. -/
lemma embedsMarked_of_markup (h : profile ∈ [html, php]) :
    Primitive.embedsMarkedAll profile.program := by
  have hmarks : [mark "<?php", mark "<?=", mark "<script", mark "<style"].all Mark.opensSection = true ∧
      [mark "?>", mark "</script", mark "</style"].all Mark.closesSection = true := by
    decide +kernel
  simp only [List.all_cons, List.all_nil, Bool.and_eq_true, Bool.and_true] at hmarks
  have hcode : phpCode ∈ embeddable := by simp [embeddable]
  have hscript : javascript ∈ embeddable := by simp [embeddable]
  have hstyle : css ∈ embeddable := by simp [embeddable]
  have hmarkup : Primitive.embedsMarkedAll (Primitive.markup true) :=
    ⟨⟨hmarks.1.1, hmarks.2.1, hcode⟩, ⟨hmarks.1.2.1, hmarks.2.1, hcode⟩, trivial,
      ⟨hmarks.1.2.2.1, hmarks.2.2.1, hscript⟩, ⟨hmarks.1.2.2.2, hmarks.2.2.2, hstyle⟩, trivial, trivial⟩
  simp only [List.mem_cons, List.not_mem_nil, or_false] at h
  rcases h with rfl | rfl
  · exact hmarkup
  · exact ⟨⟨hmarkup, hcode, trivial⟩, trivial⟩

/-- **An embedded profile behaves as if it owned its section.** In every pass over an HTML or a PHP
document, full or local, every section that is handed to another profile is lexed as if it were a
document, and what the pass knows of embedded sections in the end is what these sections add.

**Proof sketch.** A section that markup hands over ends with the text, in front of a `<` or a `?`, or
behind a `>`, where no mark of an embedded profile reaches across. Induction over the program, and for
one primitive over the regions that it has mapped. -/
theorem delegations_ownSections (hprofile : profile ∈ [html, php]) {doc : Buffer} {start length : Nat}
    {detect : Bool} (hsection : Scene.WellFormed ⟨doc.text, start, start + length, detect⟩)
    (layout : Layout) (nested : IntervalSet) :
    (∀ call ∈ profile.delegations doc start length detect layout nested,
      call.outer = .document doc.text profile.dialect ∧ call.profile ∈ embeddable ∧
        ∃ after alone, call.OwnsSection ⟨doc.text, start, start + length, detect⟩ after alone) ∧
    (∀ pass, profile.runPass doc start length detect layout nested = .ok pass →
      pass.nested.intervals.toList.Perm
        ((profile.delegations doc start length detect layout nested).flatMap
          Delegation.recordsInPlace)) ∧
    (layout.HistoryOrdered →
      ∃ pass, profile.runPass doc start length detect layout nested = .ok pass) := by
  have hsound : profile.Sound := by
    refine sound_of_mem_builtIn ?_
    simp only [List.mem_cons, List.not_mem_nil, or_false] at hprofile
    rcases hprofile with rfl | rfl <;> simp [builtIn]
  have hdelegates := Primitive.runAll_delegates (d := profile.dialect) hsection profile.program true
    ⟨doc.clear start length, layout.reset, nested.reset, .unconditional, none⟩ hsound.2
    (embedsMarked_of_markup hprofile)
    ⟨rfl, ⟨IntervalSet.fits_reset, by simp [Layout.reset, Layout.mapSets, IntervalSet.reset],
      by simp [Layout.reset, Layout.mapSets, IntervalSet.reset]⟩,
      by simp [Frame.EmbeddedStarts, Layout.reset, Layout.mapSets, IntervalSet.reset]⟩
  refine ⟨hdelegates.owns, hdelegates.nested, fun hhistory => ?_⟩
  obtain ⟨pass, hpass, -⟩ := profile.runPass_ensures hsound hsection hhistory nested
  exact ⟨pass, hpass⟩

/-- PHP code with a mark of a line comment in a string, a script, and a style sheet that the end of the
document cuts off in a comment. -/
theorem delegations_ownSections_html :
    ∃ doc pass, doc = Buffer.new (Text.ofString "<b><?=\"//\" # a\n?><script>'x'</script><style>/*") ∧
      html.runPass doc 0 46 false .empty .empty = .ok pass ∧
      ((html.delegations doc 0 46 false .empty .empty).map fun call =>
        (call.lo, call.hi, call.recordsInPlace.map Interval.start)) =
          [(6, 15, [6, 11]), (25, 28, [25]), (44, 46, [44])] ∧
      (∀ call ∈ html.delegations doc 0 46 false .empty .empty,
        ∃ after alone, call.OwnsSection ⟨doc.text, 0, 0 + 46, false⟩ after alone) ∧
      pass.nested.intervals.toList.Perm
        ((html.delegations doc 0 46 false .empty .empty).flatMap Delegation.recordsInPlace) := by
  generalize hdoc :
    Buffer.new (Text.ofString "<b><?=\"//\" # a\n?><script>'x'</script><style>/*") = doc
  have hsection : Scene.WellFormed ⟨doc.text, 0, 0 + 46, false⟩ := by
    subst hdoc
    exact Scene.wellFormed_whole (Text.valid_ofString _) false
  have hcalls : ((html.delegations doc 0 46 false .empty .empty).map fun call =>
      (call.lo, call.hi, call.recordsInPlace.map Interval.start)) =
        [(6, 15, [6, 11]), (25, 28, [25]), (44, 46, [44])] := by
    subst hdoc
    decide +kernel
  obtain ⟨howns, hnested, hsucceeds⟩ :=
    delegations_ownSections (List.mem_cons_self ..) hsection .empty .empty
  obtain ⟨pass, hpass⟩ := hsucceeds Layout.historyOrdered_empty
  exact ⟨doc, pass, rfl, hpass, hcalls, fun call hcall => (howns call hcall).2.2, hnested pass hpass⟩

end Profile

end LexPaint
