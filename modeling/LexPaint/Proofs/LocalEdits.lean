import LexPaint.Proofs.OutsideStyles

set_option relaxedAutoImplicit false
set_option autoImplicit false

/-!
# A local pass after an edit

A painter that knows a document gets an edit of it. If it serves the edit by a local pass, the
document looks as a new painter would paint it: in the section the pass has painted what a full pass
paints there, and outside the section nothing has to change, because the comparisons found no change.

## Main definitions

* `Profile.HeredocsFirst`: profiles that map heredocs before anything else.

## Main results

* `Profile.heredocs_counted`: the counts of heredocs after a pass.
* `Painter.unchanged_of_escalation`: what the comparisons have seen.
* `Painter.edit_looksNew`: a local pass after an edit.
-/

namespace LexPaint

/-! ### Counts of heredocs -/

/-- Heredocs are mapped by the first primitive, if they are mapped at all. -/
def Profile.HeredocsFirst (profile : Profile) : Prop :=
  Primitive.mapsSortAll .heredocs profile.program = false ∨
    profile.dialect.heredocs.isSome = true ∧ ∃ rest, profile.program = .heredocs :: rest ∧
      Primitive.mapsSortAll .heredocs rest = false

/-- The set keeps the number of its entries in its counts. -/
def IntervalSet.Counted (s : IntervalSet) : Prop :=
  s.counts.accepted = s.intervals.size

namespace CompositeSet

variable {s s' : IntervalSet} {tested : Nat}

/-- A comparison of lengths that finds no change has found an entry of the same length for each.

**Proof sketch.** Induction on the entries, with the index of the first one generalised. -/
lemma lengths_of_someLengthChanged {ivs : List Interval} {index : Nat}
    (h : someLengthChanged s index ivs = .ok false) :
    ∀ i iv, ivs[i]? = some iv → ∃ iv₀, s.retained[index + i]? = some iv₀ ∧
      iv₀.stop - iv₀.start = iv.stop - iv.start := by
  induction ivs generalizing index with
  | nil => exact fun i iv hi => by simp at hi
  | cons head rest ih =>
    obtain ⟨length, hlength, h⟩ := bind_eq_ok.mp h
    obtain ⟨changed, hchanged, h⟩ := bind_eq_ok.mp h
    obtain ⟨others, hothers, h⟩ := bind_eq_ok.mp h
    have hboth : changed = false ∧ others = false := by simpa using Except.ok.inj h
    obtain ⟨rfl, rfl⟩ := hboth
    intro i iv hi
    cases i with
    | zero =>
      obtain rfl : head = iv := by simpa using hi
      unfold IntervalSet.lengthChanged at hchanged
      split at hchanged
      · rename_i iv₀ hiv₀
        obtain ⟨length₀, hlength₀, hchanged⟩ := bind_eq_ok.mp hchanged
        have hsame : length₀ = length := by simpa using Except.ok.inj hchanged
        have h1 := minus_eq_ok_iff.mp hlength
        have h2 := minus_eq_ok_iff.mp hlength₀
        exact ⟨iv₀, hiv₀, by omega⟩
      · cases hchanged
    | succ i =>
      obtain ⟨iv₀, hiv₀, hsame⟩ := ih hothers i iv (by simpa using hi)
      exact ⟨iv₀, by rwa [Nat.add_right_comm] at hiv₀, hsame⟩

/-- A comparison of entries that finds no change has found the same lengths.

**Proof sketch.** The numbers of entries are compared first. So there are no more entries in the
history, and the comparison one by one covers all of them. -/
lemma lengths_of_entriesChanged (h : entriesChanged s tested = .ok (s', false))
    (hretained : s.retainedCounts.accepted = s.retained.size) :
    s'.intervals.toList.map (fun iv => iv.stop - iv.start) =
      s.retained.toList.map fun iv => iv.stop - iv.start := by
  obtain ⟨changed, hchanged, h⟩ := bind_eq_ok.mp h
  obtain ⟨hs', hsame⟩ := Prod.mk.inj (Except.ok.inj h)
  obtain ⟨hsize, rfl⟩ : (s.count tested s.size).sizeChanged = false ∧ changed = false := by
    simpa using hsame
  have hcounts : s.intervals.size = s.retained.size := by
    have hcounts : (⟨tested, s.size⟩ : Tally) = s.retainedCounts := by
      simpa [IntervalSet.sizeChanged, IntervalSet.count] using hsize
    rw [← hretained, ← hcounts]
    rfl
  have hlengths : ∀ (i : Nat) (iv : Interval), s.intervals.toList[i]? = some iv →
      ∃ iv₀ : Interval, s.retained[i]? = some iv₀ ∧ iv₀.stop - iv₀.start = iv.stop - iv.start := by
    intro i iv hi
    have := lengths_of_someLengthChanged hchanged i iv hi
    rwa [Nat.zero_add] at this
  rw [← hs']
  show s.intervals.toList.map _ = _
  refine List.ext_getElem? fun i => ?_
  rw [List.getElem?_map, List.getElem?_map, Array.getElem?_toList]
  cases hi : s.intervals[i]? with
  | none =>
    have := Array.getElem?_eq_none_iff.mp hi
    rw [Array.getElem?_toList, Array.getElem?_eq_none (by omega)]
  | some iv =>
    obtain ⟨iv₀, hiv₀, hsame⟩ := hlengths i iv (by rw [Array.getElem?_toList, hi])
    rw [Array.getElem?_toList, hiv₀]
    simp [hsame]

end CompositeSet

namespace Pass

variable {s : Scene} {f : Frame} {p q : Pass}

/-- Mapping heredocs counts those that it has mapped. -/
lemma mapHeredocs_counted (h : p.mapHeredocs s f = .ok q)
    (hp : p.layout.composite.heredocs.Counted) : q.layout.composite.heredocs.Counted := by
  rcases mapHeredocs_cases h with ⟨-, rfl⟩ | ⟨rules, harvest, set, changed, -, -, -, -, rfl⟩
  · exact hp
  · rw [layout_repairIf]
    rfl

/-- If the counts and lengths of heredocs are looked at, and no full pass is asked for, then the
lengths are those of the last pass.

**Proof sketch.** A change of the lengths would have asked for a repair. -/
lemma mapHeredocs_lengths (hchecks : s.checks f = true) (hd : f.dialect.heredocs.isSome = true)
    (hp : p.layout.composite.heredocs.retainedCounts.accepted =
      p.layout.composite.heredocs.retained.size)
    (h : p.mapHeredocs s f = .ok q) (hquiet : q.repair = none) :
    q.layout.composite.heredocs.intervals.toList.map (fun iv => iv.stop - iv.start) =
      p.layout.composite.heredocs.retained.toList.map fun iv => iv.stop - iv.start := by
  rcases mapHeredocs_cases h with
    ⟨hnone, -⟩ | ⟨rules, harvest, set, changed, -, -, rfl, hentries, rfl⟩
  · rw [hnone] at hd
    cases hd
  · cases changed with
    | true =>
      unfold repairIf requestRepair at hquiet
      rw [hchecks, Bool.true_and, if_pos rfl] at hquiet
      split at hquiet
      · rename_i reason hreason
        rw [hreason] at hquiet
        cases hquiet
      · cases hquiet
    | false =>
      rw [layout_repairIf]
      -- mapping leaves alone what is kept of the pass before
      have hretained : (harvest.items.foldl addHeredoc p.layout.composite.heredocs).retained =
          p.layout.composite.heredocs.retained ∧
            (harvest.items.foldl addHeredoc p.layout.composite.heredocs).retainedCounts =
              p.layout.composite.heredocs.retainedCounts := by
        have hadd (set : IntervalSet) (found : Interval × Interval) :
            (addHeredoc set found).retained = set.retained ∧
              (addHeredoc set found).retainedCounts = set.retainedCounts := by
          unfold addHeredoc
          dsimp only
          split <;> exact ⟨rfl, rfl⟩
        rw [← Array.foldl_toList]
        generalize p.layout.composite.heredocs = set
        induction harvest.items.toList generalizing set with
        | nil => exact ⟨rfl, rfl⟩
        | cons found rest ih =>
          obtain ⟨h1, h2⟩ := ih (addHeredoc set found)
          exact ⟨h1.trans (hadd set found).1, h2.trans (hadd set found).2⟩
      have := CompositeSet.lengths_of_entriesChanged hentries (by rw [hretained.1, hretained.2, hp])
      rwa [hretained.1] at this

end Pass

namespace Profile

variable {profile : Profile} {doc : Buffer} {start length : Nat} {detect : Bool} {layout : Layout}
variable {nested : IntervalSet} {q : Pass}

/-- A program that does not map heredocs leaves none. -/
lemma heredocs_of_unmapped (hnone : Primitive.mapsSortAll .heredocs profile.program = false)
    (hpass : profile.runPass doc start length detect layout nested = .ok q) :
    q.layout.composite.heredocs = layout.composite.heredocs.reset :=
  Option.some.inj (Primitive.runAll_sort _ _ _ _ hnone hpass)

/-- The counts of heredocs are those of the heredocs that a pass has mapped.

**Proof sketch.** Heredocs are mapped first, and nothing behind that touches their set. -/
lemma heredocs_counted (hfirst : profile.HeredocsFirst)
    (hpass : profile.runPass doc start length detect layout nested = .ok q) :
    q.layout.composite.heredocs.Counted := by
  rcases hfirst with hnone | ⟨-, rest, hprogram, hrest⟩
  · rw [heredocs_of_unmapped hnone hpass]
    rfl
  · unfold runPass at hpass
    rw [hprogram, Primitive.runAll_cons rfl] at hpass
    obtain ⟨p₁, hp₁, hpass⟩ := bind_eq_ok.mp hpass
    have hkept : q.layout.composite.heredocs = p₁.layout.composite.heredocs :=
      Option.some.inj (Primitive.runAll_sort _ _ _ _ hrest hpass)
    rw [hkept]
    simp only [Primitive.run] at hp₁
    exact Pass.mapHeredocs_counted hp₁ rfl

/-- A local pass after a full one that asks for no repair has found heredocs of the same lengths.

**Proof sketch.** A full pass leaves counts that are right, and the local pass compares with them
when it maps heredocs. What follows leaves the set as it is. -/
lemma heredocs_lengths (hfirst : profile.HeredocsFirst) {t₀ : Text} {q₀ : Pass}
    (h₀ : profile.freshPass t₀ = .ok q₀)
    (hpass : profile.runPass doc start length true q₀.layout.commit nested = .ok q)
    (hquiet : q.repair = none) :
    q.layout.composite.heredocs.intervals.toList.map (fun iv => iv.stop - iv.start) =
      q₀.layout.composite.heredocs.intervals.toList.map fun iv => iv.stop - iv.start := by
  have hcounted := heredocs_counted hfirst h₀
  rcases hfirst with hnone | ⟨hd, rest, hprogram, hrest⟩
  · rw [heredocs_of_unmapped hnone hpass, heredocs_of_unmapped hnone h₀]
    rfl
  · unfold runPass at hpass
    rw [hprogram, Primitive.runAll_cons rfl] at hpass
    obtain ⟨p₁, hp₁, hpass⟩ := bind_eq_ok.mp hpass
    have hkept : q.layout.composite.heredocs = p₁.layout.composite.heredocs :=
      Option.some.inj (Primitive.runAll_sort _ _ _ _ hrest hpass)
    have hquiet₁ := Primitive.runAll_quiet rest _ _ _ hpass (fun _ => hquiet) rfl
    simp only [Primitive.run] at hp₁
    rw [hkept]
    refine Pass.mapHeredocs_lengths rfl hd ?_ hp₁ hquiet₁
    exact hcounted

end Profile

/-! ### Local passes -/

namespace Layout

variable {w : EditWindow}

/-- If no first change is found, then none of the sets has changed. -/
lemma layoutChange_eq_none {sets : List (RepairReason × IntervalSet)}
    (h : firstChange w sets = .ok none) : ∀ entry ∈ sets, entry.2.layoutChange w = .ok false := by
  induction sets with
  | nil => exact fun entry hentry => by cases hentry
  | cons head rest ih =>
    obtain ⟨changed, hchanged, h⟩ := bind_eq_ok.mp h
    cases changed with
    | true => cases h
    | false =>
      intro entry hentry
      rcases List.mem_cons.mp hentry with rfl | hentry
      · exact hchanged
      · exact ih h entry hentry

end Layout

/-- Buffers are equal if they show the same styles in a window, before it and behind it. -/
lemma EditWindow.buffer_ext (w : EditWindow) {b b' : Buffer} (htext : b.text = b'.text)
    (hinside : ∀ i, w.start ≤ i → i < w.stop → b.styles[i]? = b'.styles[i]?)
    (hbefore : ∀ i, i < w.start → b.styles[i]? = b'.styles[i]?)
    (hafter : ∀ k, b.styles[w.stop + k]? = b'.styles[w.stop + k]?) : b = b' := by
  refine Buffer.ext htext (Array.ext_getElem? fun i => ?_)
  rcases Nat.lt_or_ge i w.start with hlt | hge
  · exact hbefore i hlt
  · rcases Nat.lt_or_ge i w.stop with hlt' | hge'
    · exact hinside i hge hlt'
    · have := hafter (i - w.stop)
      rwa [Nat.add_sub_cancel' hge'] at this

/-- The styles behind the window agree to the end of the documents. -/
lemma Pass.SameOutside.styles_after {w : EditWindow} {q q₀ : Pass} {t : Text}
    {pos added removed : Nat} (h : q.SameOutside w (t.size - w.stop) q₀)
    (hw : w.Around t q₀.canvas.text pos added removed) (htext : q.canvas.text = t) (k : Nat) :
    q.canvas.styles[w.stop + k]? = q₀.canvas.styles[w.oldStop + k]? := by
  by_cases hk : k < t.size - w.stop
  · exact h.after k hk
  · have hsize := q.canvas.size_styles
    have hsize₀ := q₀.canvas.size_styles
    have hold := hw.oldStop_eq
    have hbytes := hw.edited.size_eq
    rw [Array.getElem?_eq_none (by rw [hsize, htext]; omega), Array.getElem?_eq_none (by omega)]

namespace Painter

variable {p p' : Painter} {profile : Profile} {doc doc' : Buffer} {s : Section} {w : EditWindow}

/-- If a local pass that follows a full one was enough, then the comparisons have found no change
between the full passes over the document after the edit and before it.

**Proof sketch.** A local pass maps what the full pass maps, and it compares that with the history,
which is what the full pass before the edit has mapped. -/
theorem unchanged_of_escalation (hprofile : profile.Sound) (hfirst : profile.HeredocsFirst)
    (hdoc : doc.text.Valid) (hs : s.Lies doc.text) (hw : w.start ≤ w.stop) {t₀ : Text}
    {q q₀ pass : Pass} (h : profile.freshPass doc.text = .ok q) (h₀ : profile.freshPass t₀ = .ok q₀)
    (hpass : profile.runPass doc s.start s.length true q₀.layout.commit q₀.nested.commit = .ok pass)
    (hend : escalation pass w = .ok none) : q.Unchanged w q₀ := by
  have hquiet := quiet_of_escalation hend
  have hagree := profile.runPass_agree hprofile (hs.scene hdoc true) q₀.layout.commit q₀.nested.commit
    pass q hpass h fun _ => hquiet
  have hcontinues := Primitive.runAll_continues _ _ _ _ hpass
  have hlengths := Profile.heredocs_lengths hfirst h₀ hpass hquiet
  unfold escalation at hend
  rw [hquiet] at hend
  obtain ⟨reason, hlayout, hend⟩ := bind_eq_ok.mp hend
  cases reason with
  | some reason => cases hend
  | none =>
    obtain ⟨changed, hnested, hend⟩ := bind_eq_ok.mp hend
    cases changed with
    | true => cases hend
    | false =>
      have hsets : List.Forall₂ (fun found found₀ : Array Interval =>
          w.Keeps found.toList found₀.toList) pass.layout.found pass.layout.history := by
        rw [Layout.found, Layout.history, List.forall₂_map_left_iff, List.forall₂_map_right_iff,
          List.forall₂_same]
        exact fun entry hentry =>
          EditWindow.keeps_of_layoutChange hw (Layout.layoutChange_eq_none hlayout entry hentry)
      refine ⟨?_, ?_, ?_⟩
      · rwa [hcontinues.history, hagree.layout.found_eq] at hsets
      · have := EditWindow.keeps_of_layoutChange hw hnested
        rwa [hcontinues.nested, hagree.nested.intervals] at this
      · rwa [hagree.layout.heredocs.intervals] at hlengths

/-- A local pass after an edit leaves the styles outside the window where they were before the edit,
each with its byte, and in the window it paints what a new painter paints.

**Proof sketch.** In the window a pass that asks for no repair paints what a new painter paints.
Outside, a pass leaves the styles alone, and the edit has moved them with their bytes. -/
lemma styles_of_linesOnly (hprofile : profile.Sound) {pos added removed : Nat} {doc₀ : Buffer}
    (hedited : doc.Edited doc₀ pos added removed) (hw : w.Around doc.text doc₀.text pos added removed)
    (hs : s.Lies doc.text) (hstart : w.start = s.start) (hstop : w.stop = s.stop) {fresh : Painter}
    {canvas : Buffer} (hnew : Painter.new.full profile (Buffer.new doc.text) = .ok (fresh, canvas))
    (hedit : p.edit profile doc s w = .ok (.linesOnly, p', doc')) :
    (∀ i, w.start ≤ i → i < w.stop → doc'.styles[i]? = canvas.styles[i]?) ∧
      (∀ i, i < w.start → doc'.styles[i]? = doc₀.styles[i]?) ∧
      ∀ k, doc'.styles[w.stop + k]? = doc₀.styles[w.oldStop + k]? := by
  obtain ⟨pass, hpass, hend, rfl⟩ := pass_of_linesOnly hedit
  have hlength : s.stop = s.start + s.length := rfl
  have h1 := hw.start_le
  have h2 := hw.le_stop
  have h3 := hw.oldStop_eq
  refine ⟨fun i hi hi' => ?_, fun i hi => ?_, fun k => ?_⟩
  · obtain ⟨fresh', canvas', hnew', -, -, hview⟩ :=
      commit_fresh hprofile hedited.text.valid hs hpass (quiet_of_escalation hend)
    obtain ⟨-, rfl⟩ := Prod.mk.inj (Except.ok.inj (hnew.symm.trans hnew'))
    exact hview i (by omega) (by omega)
  · rw [profile.runPass_outside hpass (by omega)]
    exact hedited.styles_before i (by omega)
  · rw [profile.runPass_outside hpass (by omega)]
    have := hedited.styles_after (w.stop + k - (pos + added))
    rwa [Nat.add_sub_cancel' (by omega),
      show pos + removed + (w.stop + k - (pos + added)) = w.oldStop + k by omega] at this

/-- **A local pass after an edit.** A document that a new painter has painted is edited, and a painter
that knows what was mapped serves the edit by a local pass. Then the document looks as a new painter
would paint it.

**Proof sketch.** In the section a local pass paints what a full pass paints. Outside the section the
styles are those before the edit, and full passes show the same styles there before and after it. -/
theorem edit_looksNew (hprofile : profile.Sound) (hfirst : profile.HeredocsFirst)
    {pos added removed : Nat} {doc₀ : Buffer} (hedited : doc.Edited doc₀ pos added removed)
    (hkeeps : profile.KeepsOutside doc.text doc₀.text) {fresh₀ : Painter}
    (h₀ : Painter.new.full profile (Buffer.new doc₀.text) = .ok (fresh₀, doc₀))
    (hlayout : p.layout = fresh₀.layout) (hnested : p.nested = fresh₀.nested)
    {n : Notification} (hn : n.Tells pos added removed) {first last : Nat}
    (hrange : n.editedRange doc.text doc₀.text.size = some (first, last))
    (hs : Section.lines doc.text first last = .ok s)
    (hw : EditWindow.ofSection? s doc₀.text.size doc.text.size = some w)
    (hedit : p.edit profile doc s w = .ok (.linesOnly, p', doc')) :
    ∃ fresh, Painter.new.full profile (Buffer.new doc.text) = .ok (fresh, doc') := by
  obtain ⟨haround, hstart, hstop⟩ := EditWindow.around_of_tells hedited.text hn hrange hs hw
  have hdoc := hedited.text.valid
  have hlies := ((Section.lines_ensures hdoc first last).elim hs).1
  obtain ⟨q₀, hq₀, hfull₀⟩ := exists_freshPass hprofile hedited.text.valid₀
  obtain ⟨rfl, hcanvas₀⟩ : Painter.new.commit q₀ = fresh₀ ∧ q₀.canvas = doc₀ := by
    simpa using hfull₀.symm.trans h₀
  obtain ⟨q, hq, hfull⟩ := exists_freshPass hprofile hdoc
  obtain ⟨hinside, hbefore, hafter⟩ :=
    styles_of_linesOnly hprofile hedited haround hlies hstart hstop hfull hedit
  have hcanvas : q.canvas.text = doc.text := profile.text_freshPass hq
  have hsame : (∀ i, i < w.start → q.canvas.styles[i]? = doc₀.styles[i]?) ∧
      ∀ k, q.canvas.styles[w.stop + k]? = doc₀.styles[w.oldStop + k]? := by
    subst hcanvas₀
    by_cases hne : added = removed
    · -- then nothing was added or removed, and both passes are the same
      subst hne
      obtain rfl : added = 0 := by
        rcases hedited.text.oneWay with h | h <;> exact h
      rw [hedited.text.eq_of_empty] at hq
      obtain rfl := Except.ok.inj (hq.symm.trans hq₀)
      have hwindow : w.oldStop = w.stop := by simpa using haround.oldStop_eq
      rw [hwindow]
      exact ⟨fun _ _ => rfl, fun _ => rfl⟩
    · obtain ⟨pass, hpass, hend, -⟩ := pass_of_linesOnly hedit
      rw [hlayout, hnested] at hpass
      have hunchanged := unchanged_of_escalation hprofile hfirst hdoc hlies haround.start_le_stop hq
        hq₀ hpass hend
      have hsame := hkeeps w pos added removed q q₀ haround hne hq hq₀ hunchanged
      exact ⟨fun i hi => by simpa using hsame.before i hi,
        hsame.styles_after haround hcanvas⟩
  have htext : doc'.text = q.canvas.text := by
    obtain ⟨pass, hpass, -, rfl⟩ := pass_of_linesOnly hedit
    rw [profile.text_runPass hpass, hcanvas]
  have hdoc' : doc' = q.canvas := w.buffer_ext htext hinside
    (fun i hi => (hbefore i hi).trans (hsame.1 i hi).symm)
    fun k => (hafter k).trans (hsame.2 k).symm
  rw [hdoc']
  exact ⟨_, hfull⟩

end Painter

end LexPaint
