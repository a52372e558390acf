import LexPaint.Proofs.EditRuns
import LexPaint.Proofs.MarkupPasses

set_option relaxedAutoImplicit false
set_option autoImplicit false

/-!
# Runs of edits of markup

HTML and PHP hand parts of a document to other languages, and a local pass compares what was mapped in
these parts without a word about which part it belongs to. As long as no two parts overlap this is
enough: after each edit the document looks as a new highlighter would paint it. A part that an edit
puts into another one can change how the rest of a tag is painted on other lines, and no comparison sees
that.

## Main definitions

* `Language.EmbedsApart`: markup in which no two embedded sections overlap.

## Main results

* `Session.edits_looksNew_markup`: runs of edits of such documents.
-/

namespace LexPaint

namespace Language

/-- The document is HTML, or PHP with a mark, and no two of the embedded sections that a new painter maps
in it overlap. -/
def EmbedsApart (language : Language) (t : Text) : Prop :=
  language = html ∧ Profile.html.SectionsApart t ∨
    language = php ∧ (t.find (mark "<?") 0 t.size).isSome = true ∧ Profile.php.SectionsApart t

variable {language : Language} {profile : Profile} {t t₀ : Text}

/-- Such documents have a profile. -/
lemma EmbedsApart.exists_profile (h : language.EmbedsApart t) :
    ∃ profile, language.profile? = some profile := by
  rcases h with ⟨rfl, -⟩ | ⟨rfl, -⟩
  · exact ⟨.html, rfl⟩
  · exact ⟨.php, rfl⟩

/-- Such documents keep their styles outside of edits.

**Proof sketch.** Both documents are in one language, either HTML or PHP with a mark. -/
lemma EmbedsApart.keepsOutside (h : language.EmbedsApart t) (h₀ : language.EmbedsApart t₀)
    (hp : language.profile? = some profile) : profile.KeepsOutside t t₀ := by
  rcases h with ⟨rfl, hapart⟩ | ⟨rfl, hsome, hapart⟩
  · cases hp
    rcases h₀ with ⟨-, hapart₀⟩ | ⟨hphp, -⟩
    · exact Profile.keepsOutside_html hapart hapart₀
    · cases hphp
  · cases hp
    rcases h₀ with ⟨hhtml, -⟩ | ⟨-, hsome₀, hapart₀⟩
    · cases hhtml
    · exact Profile.keepsOutside_php_markup hsome hsome₀ hapart hapart₀

end Language

namespace Session

/-- **Edits of markup leave no trace as long as no sections overlap.** Take an HTML document, or a PHP
document with a mark. It is painted once, and then it is edited any number of times, at boundaries, and
the highlighter is told of each edit. If no two embedded sections overlap in any of the texts on the
way, then the document has the text that the edits make in the end, and it is styled as a new
highlighter would style a new document with this text, whichever edits were served by local passes. As
long as the counters have room, the run is served to its end, and so is the request to the new
highlighter.

**Proof sketch.** By induction on the edits the document stays up to date. A local pass is kept only if
full passes have recorded the same outside of the edited lines before and after the edit. If no two
sections overlap, then what a full pass paints there can be read off from what it has recorded. -/
theorem edits_looksNew_markup {language : Language} {text : Text} (hv : text.Valid)
    {edits : List Edit} (ha : Edit.AllAdmissible text edits)
    (hapart : Edit.AllTexts language.EmbedsApart text edits) :
    (∀ s, (Session.new language .standard text).serveAll
        (.highlight :: edits.flatMap Edit.requests) = .ok s →
      s.doc.text = edits.foldl Edit.textAfter text ∧
      ∀ fresh, (Session.new language .standard s.doc.text).highlight = .ok fresh →
        fresh.doc = s.doc) ∧
    (2 * edits.length + 1 < 2 ^ 32 → Edit.AllTexts (fun t => t.size < 2 ^ 31) text edits →
      ∃ s fresh, (Session.new language .standard text).serveAll
          (.highlight :: edits.flatMap Edit.requests) = .ok s ∧
        (Session.new language .standard s.doc.text).highlight = .ok fresh ∧ fresh.doc = s.doc) := by
  obtain ⟨profile, hp⟩ := hapart.start.exists_profile
  exact looksNew_of_keepsOutside hp (fun t t₀ h h₀ => h.keepsOutside h₀ hp) hv ha hapart

/-- A value of a tag gets longer, and a string of PHP code gets shorter. Both edits are served by local
passes. -/
theorem edits_looksNew_markup_html :
    ∃ s fresh, (Session.new .html .standard (Text.ofString "<p a=b>\n<?='x'?>")).serveAll
        (.highlight :: [Edit.insert 5 (Text.ofString "c") .returned,
          .remove 12 1 (.changed false)].flatMap Edit.requests) = .ok s ∧
      s.highlighter.metrics.localPasses = 2 ∧
      (Session.new .html .standard s.doc.text).highlight = .ok fresh ∧ fresh.doc = s.doc := by
  have ha : Edit.AllAdmissible (Text.ofString "<p a=b>\n<?='x'?>")
      [.insert 5 (Text.ofString "c") .returned, .remove 12 1 (.changed false)] :=
    ⟨⟨Text.valid_ofString _, by decide +kernel⟩, ⟨by decide +kernel, by decide +kernel⟩, trivial⟩
  have hapart {t : Text} (h : Profile.html.SectionsApart t) : Language.html.EmbedsApart t :=
    .inl ⟨rfl, h⟩
  obtain ⟨-, hserved⟩ := edits_looksNew_markup (Text.valid_ofString _) ha
    ⟨hapart (by decide +kernel), hapart (by decide +kernel), hapart (by decide +kernel)⟩
  obtain ⟨s, fresh, hrun, hnew, hdoc⟩ := hserved (by decide)
    ⟨by decide +kernel, by decide +kernel, by
      show Text.size _ < _
      decide +kernel⟩
  have hlocal : ((Session.new .html .standard (Text.ofString "<p a=b>\n<?='x'?>")).serveAll
      (.highlight :: [Edit.insert 5 (Text.ofString "c") .returned,
        .remove 12 1 (.changed false)].flatMap Edit.requests)).toOption.any
          (fun s => s.highlighter.metrics.localPasses == 2) = true := by
    decide +kernel
  rw [hrun] at hlocal
  have hpasses : (s.highlighter.metrics.localPasses == 2) = true := hlocal
  exact ⟨s, fresh, hrun, by simpa using hpasses, hnew, hdoc⟩

/-- Where sections overlap, the edits do leave a trace: after a line break in an open script, the second
line shows a style that it does not have in a new document. -/
theorem edits_leave_trace_html :
    ∃ s fresh, (Session.new .html .standard (Text.ofString "<script <?=></script\np")).serveAll
        (.highlight :: [Edit.insert 12 (Text.ofString "\n") .returned].flatMap Edit.requests) = .ok s ∧
      (Session.new .html .standard s.doc.text).highlight = .ok fresh ∧
      s.doc.styles[22]? = some .plain ∧ fresh.doc.styles[22]? = some .attributeName := by
  have hrun : (do
      let s ← (Session.new .html .standard (Text.ofString "<script <?=></script\np")).serveAll
        (.highlight :: [Edit.insert 12 (Text.ofString "\n") .returned].flatMap Edit.requests)
      let fresh ← (Session.new .html .standard s.doc.text).highlight
      demand (s.doc.styles[22]? = some Style.plain ∧
        fresh.doc.styles[22]? = some Style.attributeName) .outOfRange) = .ok () := by
    decide +kernel
  obtain ⟨s, hs, hrun⟩ := bind_eq_ok.mp hrun
  obtain ⟨fresh, hnew, hrun⟩ := bind_eq_ok.mp hrun
  have hstyles := demand_eq_ok_iff.mp hrun
  exact ⟨s, fresh, hs, hnew, by simpa using hstyles⟩

end Session

end LexPaint
