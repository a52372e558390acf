import LexPaint.Proofs.Freshness

set_option relaxedAutoImplicit false
set_option autoImplicit false

/-!
# A local pass is a full pass cut to its lines

A local pass clears its section, paints there, and keeps its hands off the rest of the document. What
it paints is what a full pass paints in those lines. So a document after a local pass that was enough
is made of two pieces: the lines of the section as a full pass would leave them, and all other bytes
as they were. This holds for every section of full lines and whatever the painter remembers, whether
or not the section has to do with an edit.

## Main definitions

* `Profile.builtIn`: the profiles that come with the library.

## Main results

* `Profile.runPass_outside`: a pass leaves the styles outside its section alone.
* `Painter.linesOnly_eq_cut`: a local pass that was enough is a full pass cut to its lines.
-/

namespace LexPaint

namespace Profile

/-- The profiles of the languages, and the code between the marks of a PHP section. -/
def builtIn : List Profile :=
  [java, csharp, html, css, javascript, php, perl, python, xml, r, phpCode]

variable {profile : Profile} {doc : Buffer}

/-- The profiles that come with the library are sound. -/
lemma sound_of_mem_builtIn (h : profile ∈ builtIn) : profile.Sound := by
  have hall : builtIn.all (fun p =>
      p.dialect.isPlain && Primitive.soundAll true p.program) = true := by
    decide +kernel
  have := List.all_eq_true.mp hall profile h
  rwa [Bool.and_eq_true] at this

/-- A pass leaves the styles outside its section alone.

**Proof sketch.** Clearing the section and painting in it both keep to it. -/
lemma runPass_outside {start length : Nat} {detect : Bool} {layout : Layout} {nested : IntervalSet}
    {pass : Pass} (hpass : profile.runPass doc start length detect layout nested = .ok pass) {i : Nat}
    (hi : i < start ∨ start + length ≤ i) : pass.canvas.styles[i]? = doc.styles[i]? := by
  have hpainted := (profile.runPass_painted hpass).styles_eq hi
  have hclear : (doc.clear start length).styles[i]? = doc.styles[i]? := by
    rw [Buffer.clear, Buffer.styles_paint, if_neg]
    omega
  exact hpainted.trans hclear

end Profile

namespace Painter

variable {p p' : Painter} {profile : Profile} {doc doc' : Buffer} {s : Section} {w : EditWindow}

/-- A local pass that was enough is the pass over the section, and there was no reason for a repair. -/
lemma pass_of_linesOnly (hedit : p.edit profile doc s w = .ok (.linesOnly, p', doc')) :
    ∃ pass, profile.runPass doc s.start s.length true p.layout p.nested = .ok pass ∧
      escalation pass w = .ok none ∧ doc' = pass.canvas := by
  rcases edit_eq_ok hedit with ⟨hkind, -⟩ | ⟨pass, hpass, hend⟩
  · cases hkind
  · rcases hend with ⟨-, hreason, -, hdoc⟩ | ⟨reason, hkind, -⟩
    · exact ⟨pass, hpass, hreason, hdoc⟩
    · cases hkind

/-- **A local pass is a full pass cut to its lines.** Take a section of full lines of a document,
styled in any way. Whatever a painter remembers and whatever window it is given, if it serves the
section by a local pass, then every byte in the section gets the style that a new painter's full pass
over the text gives it, and every other byte keeps the style that it had.

**Proof sketch.** Outside the section nothing is painted. In the section the local pass agrees with
the full pass, because it asked for no repair. -/
theorem linesOnly_eq_cut (hprofile : profile ∈ Profile.builtIn) (hdoc : doc.text.Valid)
    (first last : Nat) :
    ∃ s fresh full, Section.lines doc.text first last = .ok s ∧
      Painter.new.full profile (Buffer.new doc.text) = .ok (fresh, full) ∧
      ∀ (p : Painter) (w : EditWindow) (p' : Painter) (doc' : Buffer),
        p.edit profile doc s w = .ok (.linesOnly, p', doc') →
          doc'.text = doc.text ∧
          ∀ i, doc'.styles[i]? =
            if s.start ≤ i ∧ i < s.stop then full.styles[i]? else doc.styles[i]? := by
  have hsound := Profile.sound_of_mem_builtIn hprofile
  obtain ⟨s, hs, hlies, -⟩ := Section.lines_ensures hdoc first last
  obtain ⟨pass₀, hpass₀, hfull⟩ := exists_freshPass hsound hdoc
  refine ⟨s, _, _, hs, hfull, fun p w p' doc' hedit => ?_⟩
  obtain ⟨pass, hpass, hend, rfl⟩ := pass_of_linesOnly hedit
  refine ⟨profile.text_runPass hpass, fun i => ?_⟩
  by_cases hi : s.start ≤ i ∧ i < s.stop
  · rw [if_pos hi]
    have hagree := profile.runPass_agree hsound (hlies.scene hdoc true) p.layout p.nested pass pass₀
      hpass hpass₀ fun _ => quiet_of_escalation hend
    exact hagree.view.styles i hi.1 hi.2
  · rw [if_neg hi]
    have hout : i < s.start ∨ s.start + s.length ≤ i := by
      have hstop : s.stop = s.start + s.length := rfl
      omega
    exact profile.runPass_outside hpass hout

/-- A word and a variable on the edited line of a document that was styled as a comment throughout. -/
theorem linesOnly_eq_cut_perl :
    ∃ (s : Section) (fresh p p' : Painter) (full doc' : Buffer) (w : EditWindow),
      Section.lines (Text.ofString "$a;\nmy $b;\n") 8 9 = .ok s ∧
      Painter.new.full .perl (Buffer.new (Text.ofString "$a;\nmy $b;\n")) = .ok (fresh, full) ∧
      p.edit .perl ((Buffer.new (Text.ofString "$a;\nmy $b;\n")).paint 0 11 .comment) s w =
        .ok (.linesOnly, p', doc') ∧
      ∀ i, doc'.styles[i]? = if s.start ≤ i ∧ i < s.stop then full.styles[i]? else
        ((Buffer.new (Text.ofString "$a;\nmy $b;\n")).paint 0 11 .comment).styles[i]? := by
  have hprofile : Profile.perl ∈ Profile.builtIn := by simp [Profile.builtIn]
  have hdoc : ((Buffer.new (Text.ofString "$a;\nmy $b;\n")).paint 0 11 .comment).text.Valid :=
    Text.valid_ofString _
  obtain ⟨s, fresh, full, hs, hfull, hcut⟩ := linesOnly_eq_cut hprofile hdoc 8 9
  have hrun : (do
      let r ← Painter.new.full .perl (Buffer.new (Text.ofString "$a;\nmy $;\n"))
      let s ← Section.lines (Text.ofString "$a;\nmy $b;\n") 8 9
      let r ← r.1.edit .perl ((Buffer.new (Text.ofString "$a;\nmy $b;\n")).paint 0 11 .comment) s
        ⟨4, 10, 9⟩
      demand (r.1 = PassKind.linesOnly) .outOfRange) = .ok () := by
    decide +kernel
  obtain ⟨r, -, hrun⟩ := bind_eq_ok.mp hrun
  obtain ⟨s', hs', hrun⟩ := bind_eq_ok.mp hrun
  obtain rfl : s = s' := Except.ok.inj (hs.symm.trans hs')
  obtain ⟨⟨kind, p', doc'⟩, hedit, hrun⟩ := bind_eq_ok.mp hrun
  obtain rfl : kind = .linesOnly := by simpa using demand_eq_ok_iff.mp hrun
  exact ⟨s, fresh, r.1, p', full, doc', _, hs, hfull, hedit, (hcut _ _ _ _ hedit).2⟩

end Painter

end LexPaint
