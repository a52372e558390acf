import LexPaint.Proofs.FullPasses
import LexPaint.Proofs.LocalEdits

set_option relaxedAutoImplicit false
set_option autoImplicit false

/-!
# Runs of edits

A document is painted once and then edited again and again, and the highlighter is told of every
edit. In languages without embedded sections the document looks after each edit as a new highlighter
would paint it, although most edits are served by repainting a few lines.

## Main definitions

* `Edit`, `Edit.requests`: edits of which the highlighter is told.
* `Language.EmbedsNothing`: documents without embedded sections.
* `Session.InStep`, `Session.UpToDate`: what holds of a session between edits.

## Main results

* `Session.UpToDate.serve_edit`: one edit.
* `Session.edits_looksNew`: runs of edits in languages without embedded sections.
* `Session.edit_looksNew_or_keeps`: what holds after an edit in any language.
-/

namespace LexPaint

/-! ### Edits -/

/-- How a highlighter is told of an edit. -/
inductive Announcement where
  /-- By the notification that the buffer returns. -/
  | returned
  /-- By a notification that something has changed at the offset of the edit. -/
  | changed (newlineInserted : Bool)
deriving DecidableEq

/-- An edit of which the highlighter is told. -/
inductive Edit where
  /-- A text is inserted at an offset. -/
  | insert (pos : Nat) (u : Text) (announcement : Announcement)
  /-- A number of bytes is removed at an offset. -/
  | remove (pos length : Nat) (announcement : Announcement)
deriving DecidableEq

namespace Edit

/-- The requests that make the edit and tell the highlighter of it. -/
def requests : Edit → List Request
  | insert pos u .returned => [.insert pos u true]
  | insert pos u (.changed newlineInserted) =>
    [.insert pos u false, .notify (.changed pos newlineInserted)]
  | remove pos length .returned => [.remove pos length true]
  | remove pos length (.changed newlineInserted) =>
    [.remove pos length false, .notify (.changed pos newlineInserted)]

/-- The offset of the edit. -/
def pos : Edit → Nat
  | insert pos _ _ => pos
  | remove pos _ _ => pos

/-- The number of bytes that the edit puts in. -/
def added : Edit → Nat
  | insert _ u _ => u.size
  | remove _ _ _ => 0

/-- The number of bytes that the edit takes away. -/
def removed : Edit → Nat
  | insert _ _ _ => 0
  | remove _ length _ => length

/-- The text after the edit. -/
def textAfter (t : Text) : Edit → Text
  | insert pos u _ => Buffer.insertText t pos u
  | remove pos length _ => Buffer.removeText t pos (pos + length)

/-- The edited buffer, and the notification that it returns. -/
def apply (b : Buffer) : Edit → Checked (Buffer × Notification)
  | insert pos u _ => b.insert pos u
  | remove pos length _ => b.remove pos length

/-- Whether the edit keeps to the boundaries of a text. -/
def Admissible (t : Text) : Edit → Prop
  | insert pos u _ => u.Valid ∧ t.isBoundary pos = true
  | remove pos length _ => t.isBoundary pos = true ∧ t.isBoundary (pos + length) = true

/-- Whether a text admits several edits in turn. -/
def AllAdmissible : Text → List Edit → Prop
  | _, [] => True
  | t, edit :: rest => edit.Admissible t ∧ AllAdmissible (edit.textAfter t) rest

/-- Whether something holds of a text and of all texts that several edits make of it in turn. -/
def AllTexts (P : Text → Prop) : Text → List Edit → Prop
  | t, [] => P t
  | t, edit :: rest => P t ∧ AllTexts P (edit.textAfter t) rest

variable {t : Text} {edits : List Edit} {P : Text → Prop}

/-- The buffer makes the edit, and its notification tells of it.

**Proof sketch.** By cases on the edit, with what the buffer does for each. -/
lemma edited_of_apply {b b' : Buffer} {n : Notification} {edit : Edit} (hv : b.text.Valid)
    (ha : edit.Admissible b.text) (h : edit.apply b = .ok (b', n)) :
    b'.Edited b edit.pos edit.added edit.removed ∧ b'.text = edit.textAfter b.text ∧
      n.Tells edit.pos edit.added edit.removed := by
  cases edit with
  | insert pos u announcement =>
    obtain ⟨hu, hpos⟩ := ha
    obtain ⟨htext, rfl⟩ := (Buffer.insert_ensures hpos).elim h
    exact ⟨Buffer.edited_insert hv hu hpos h, htext, .inserted rfl rfl⟩
  | remove pos length announcement =>
    obtain ⟨hpos, hstop⟩ := ha
    obtain ⟨htext, rfl⟩ := (Buffer.remove_ensures hpos hstop).elim h
    exact ⟨Buffer.edited_remove hv hpos hstop h, htext, .removed rfl⟩

/-- What holds of all texts of a run holds of the first one. -/
lemma AllTexts.start (h : AllTexts P t edits) : P t := by
  cases edits with
  | nil => exact h
  | cons edit rest => exact h.1

/-- What holds of every text holds of those of a run. -/
lemma allTexts (h : ∀ t, P t) : AllTexts P t edits := by
  induction edits generalizing t with
  | nil => exact h t
  | cons edit rest ih => exact ⟨h t, ih⟩

/-- Edits that keep to boundaries make requests that do. -/
lemma allAdmissible_requests (h : AllAdmissible t edits) :
    Request.AllAdmissible t (edits.flatMap requests) := by
  induction edits generalizing t with
  | nil => trivial
  | cons edit rest ih =>
    obtain ⟨hedit, hrest⟩ := h
    have hrest := ih hrest
    rcases edit with ⟨pos, u, _ | _⟩ | ⟨pos, length, _ | _⟩
    · exact ⟨hedit, hrest⟩
    · exact ⟨hedit, trivial, hrest⟩
    · exact ⟨hedit, hrest⟩
    · exact ⟨hedit, trivial, hrest⟩

/-- If the texts of the edits are short enough, so are those of the requests. -/
lemma allBelow_requests {bound : Nat} (h : AllTexts (fun t => t.size < bound) t edits) :
    Request.AllBelow bound t (edits.flatMap requests) := by
  induction edits generalizing t with
  | nil => trivial
  | cons edit rest ih =>
    have hsize := h.2.start
    have hrest := ih h.2
    rcases edit with ⟨pos, u, _ | _⟩ | ⟨pos, length, _ | _⟩
    · exact ⟨hsize, hrest⟩
    · exact ⟨hsize, hsize, hrest⟩
    · exact ⟨hsize, hrest⟩
    · exact ⟨hsize, hsize, hrest⟩

/-- An edit makes two requests at most. -/
lemma length_requests (edits : List Edit) :
    (edits.flatMap requests).length ≤ 2 * edits.length := by
  induction edits with
  | nil => exact Nat.le_refl _
  | cons edit rest ih =>
    have : edit.requests.length ≤ 2 := by
      rcases edit with ⟨pos, u, _ | _⟩ | ⟨pos, length, _ | _⟩ <;> simp [requests]
    rw [List.flatMap_cons, List.length_append, List.length_cons]
    omega

end Edit

/-! ### Languages -/

namespace Language

/-- The languages that have no embedded sections. -/
def flat : List Language :=
  [java, csharp, css, javascript, perl, python, r, xml]

/-- The document has no embedded sections, either because its language has none, or because it is PHP
without a mark that opens a section. -/
def EmbedsNothing (language : Language) (t : Text) : Prop :=
  language ∈ flat ∨ language = php ∧ t.find (mark "<?") 0 t.size = none

variable {language : Language} {profile : Profile} {t t₀ : Text}

/-- In the standard configuration every language has the profile that it names. -/
lemma profile?_standard (language : Language) :
    Config.standard.profile? language = language.profile? := by
  cases language <;> rfl

/-- A language without embedded sections is highlighted. -/
lemma EmbedsNothing.exists_profile (h : language.EmbedsNothing t) :
    ∃ profile, language.profile? = some profile := by
  cases language with
  | plainText => simp [EmbedsNothing, flat] at h
  | _ => exact ⟨_, rfl⟩

/-- Every language maps its heredocs first, if it has any. -/
lemma heredocsFirst (hp : language.profile? = some profile) : profile.HeredocsFirst := by
  cases language with
  | perl =>
    cases hp
    exact .inr ⟨rfl, _, rfl, by decide⟩
  | plainText => cases hp
  | _ =>
    cases hp
    exact .inl (by decide)

/-- Documents without embedded sections keep their styles outside of edits.

**Proof sketch.** By cases on the language. The programs are plain except for those of XML and PHP.
XML has no section to embed. PHP hands over the code to a program of its own, and a document without
open marks is all markup or all code. -/
theorem EmbedsNothing.keepsOutside (h : language.EmbedsNothing t) (h₀ : language.EmbedsNothing t₀)
    (hp : language.profile? = some profile) : profile.KeepsOutside t t₀ := by
  have plain {profile : Profile} (hbuiltIn : profile ∈ Profile.builtIn)
      (hplain : Primitive.isPlain profile.dialect profile.program = true)
      (hnone : (Primitive.mapping .start profile.program).1.operators = false) :
      profile.KeepsOutside t t₀ :=
    Profile.keepsOutside_of_plain (Profile.sound_of_mem_builtIn hbuiltIn) hplain (.inl hnone)
  cases language with
  | java | csharp | css | javascript | python | r =>
    cases hp
    exact plain (by simp [Profile.builtIn]) (by decide +kernel) (by decide +kernel)
  | perl =>
    cases hp
    exact Profile.keepsOutside_of_plain (Profile.sound_of_mem_builtIn (by simp [Profile.builtIn]))
      (by decide +kernel) (.inr ⟨_, Dialect.perl_opensOnLine⟩)
  | xml =>
    cases hp
    exact Profile.keepsOutside_xml
  | php =>
    cases hp
    have hnone {t : Text} (h : php.EmbedsNothing t) : t.find (mark "<?") 0 t.size = none := by
      rcases h with hmem | ⟨-, hnone⟩
      · simp [flat] at hmem
      · exact hnone
    exact Profile.keepsOutside_php (hnone h) (hnone h₀)
  | html => simp [EmbedsNothing, flat] at h
  | plainText => cases hp

end Language

/-! ### Sessions -/

namespace Session

/-- What holds of a session between edits of which the highlighter is told: it knows the length of the
document. -/
structure InStep (language : Language) (config : Config) (s : Session) : Prop where
  healthy : s.Healthy
  language_eq : s.highlighter.language = language
  config_eq : s.highlighter.config = config
  lastLength_eq : s.highlighter.lastLength = some s.doc.size

/-- The document looks as a new painter would paint it, and the painter knows what was mapped in it. -/
def UpToDate (profile : Profile) (s : Session) : Prop :=
  ∃ fresh, Painter.new.full profile (Buffer.new s.doc.text) = .ok (fresh, s.doc) ∧
    s.highlighter.painter.layout = fresh.layout ∧ s.highlighter.painter.nested = fresh.nested

variable {s s' : Session} {h h' : Highlighter} {profile : Profile} {doc₀ doc doc' : Buffer}
variable {kind : PassKind} {language : Language} {config : Config}

/-- The highlighter has the profile of the language in its configuration. -/
lemma InStep.profile_eq (hs : s.InStep language config) :
    s.highlighter.profile = config.profile? language := by
  rw [hs.healthy.highlighter.profile_eq, hs.language_eq, hs.config_eq]

/-! #### Single requests -/

/-- The first request of a run that was served has made a step. -/
lemma steps_of_serveAll {request : Request} {rest : List Request}
    (hrun : s.serveAll (request :: rest) = .ok s') :
    ∃ kind s₁, s.Steps request kind s₁ ∧ s₁.serveAll rest = .ok s' := by
  obtain ⟨⟨reply, s₁⟩, hserve, hrest⟩ := bind_eq_ok.mp hrun
  exact ⟨reply.kind, s₁, steps_of_serve hserve, hrest⟩

/-- The requests of an edit change the buffer, and then the highlighter answers to the notification that
the buffer has returned, or to one that something has changed.

**Proof sketch.** By cases on the edit and on how it is announced. Each request of a run is one step,
and a step makes the edit, has the highlighter answer, or does both. -/
lemma answers_of_requests {edit : Edit} (hrun : s.serveAll edit.requests = .ok s') :
    ∃ edited returned n kind, edit.apply s.doc = .ok (edited, returned) ∧
      (n = returned ∨ ∃ newlineInserted, n = .changed edit.pos newlineInserted) ∧
      s.highlighter.Answers edited (some n) kind s'.highlighter s'.doc := by
  rcases edit with ⟨pos, u, _ | newlineInserted⟩ | ⟨pos, length, _ | newlineInserted⟩
  · obtain ⟨kind, s₁, hstep, hrest⟩ := steps_of_serveAll hrun
    cases hrest
    cases hstep with
    | insert he hanswer => exact ⟨_, _, _, _, he, .inl rfl, hanswer⟩
  · obtain ⟨kind, s₁, hstep, hrest⟩ := steps_of_serveAll hrun
    obtain ⟨kind', s₂, hstep', hrest⟩ := steps_of_serveAll hrest
    cases hrest
    cases hstep with
    | insertQuietly he =>
      cases hstep' with
      | notify hanswer => exact ⟨_, _, _, _, he, .inr ⟨newlineInserted, rfl⟩, hanswer⟩
  · obtain ⟨kind, s₁, hstep, hrest⟩ := steps_of_serveAll hrun
    cases hrest
    cases hstep with
    | remove he hanswer => exact ⟨_, _, _, _, he, .inl rfl, hanswer⟩
  · obtain ⟨kind, s₁, hstep, hrest⟩ := steps_of_serveAll hrun
    obtain ⟨kind', s₂, hstep', hrest⟩ := steps_of_serveAll hrest
    cases hrest
    cases hstep with
    | removeQuietly he =>
      cases hstep' with
      | notify hanswer => exact ⟨_, _, _, _, he, .inr ⟨newlineInserted, rfl⟩, hanswer⟩

/-- The highlighter is told of the edit that the buffer has made. -/
lemma edited_of_requests (hv : s.doc.text.Valid) {edit : Edit} (ha : edit.Admissible s.doc.text)
    (hrun : s.serveAll edit.requests = .ok s') :
    ∃ edited n kind, edited.Edited s.doc edit.pos edit.added edit.removed ∧
      edited.text = edit.textAfter s.doc.text ∧ n.Tells edit.pos edit.added edit.removed ∧
      s.highlighter.Answers edited (some n) kind s'.highlighter s'.doc := by
  obtain ⟨edited, returned, n, kind, happly, hn, hanswer⟩ := answers_of_requests hrun
  obtain ⟨hedited, htext, htells⟩ := Edit.edited_of_apply hv ha happly
  refine ⟨edited, n, kind, hedited, htext, ?_, hanswer⟩
  rcases hn with rfl | ⟨newlineInserted, rfl⟩
  · exact htells
  · exact .changed newlineInserted

/-- What a new highlighter shows is what a new painter paints.

**Proof sketch.** A new highlighter with a profile serves its first request by a full pass. -/
lemma painted_of_highlight {t : Text} {fresh : Session} (hp : config.profile? language = some profile)
    (hnew : (Session.new language config t).highlight = .ok fresh) :
    ∃ painter, Painter.new.full profile (Buffer.new t) = .ok (painter, fresh.doc) := by
  obtain ⟨⟨h, doc⟩, hpaint, hnew⟩ := bind_eq_ok.mp hnew
  cases hnew
  have hpaints := (Highlighter.answers_of_highlightDocument hpaint none).paints
  generalize h.painter = painter at hpaints
  cases hpaints with
  | plain hnone => exact absurd (hp.symm.trans hnone) (by simp)
  | full hprofile hfull =>
    obtain rfl := Option.some.inj (hprofile.symm.trans hp)
    exact ⟨_, hfull⟩
  | edit hprofile hold hn => cases hn

/-! #### Sessions in step -/

/-- A highlighter that has answered knows the length of the document. -/
lemma inStep_of_answers {n : Option Notification} (ha : h.Answers doc n kind h' doc')
    (hh : h.Healthy) (hv : doc.text.Valid) : InStep h.language h.config ⟨h', doc'⟩ := by
  have htext := (ha.paints.ordered hh hv).2
  refine ⟨⟨htext ▸ hv, ha.healthy hh hv⟩, ha.language_eq, ha.config_eq, ?_⟩
  rw [ha.lastLength_eq]
  exact congrArg (fun t : Text => some t.size) htext.symm

namespace InStep

/-- An edit keeps a session in step, and it makes the text that it should. -/
lemma serve_edit (hs : s.InStep language config) {edit : Edit} (ha : edit.Admissible s.doc.text)
    (hrun : s.serveAll edit.requests = .ok s') :
    s'.InStep language config ∧ s'.doc.text = edit.textAfter s.doc.text := by
  obtain ⟨edited, n, kind, hedited, htext, -, hanswer⟩ :=
    edited_of_requests hs.healthy.valid ha hrun
  have hstep := inStep_of_answers hanswer hs.healthy.highlighter hedited.text.valid
  rw [hs.language_eq, hs.config_eq] at hstep
  exact ⟨hstep, (hanswer.paints.ordered hs.healthy.highlighter hedited.text.valid).2.trans htext⟩

/-- Something that every edit keeps as long as the texts are of a kind holds after all edits.

**Proof sketch.** Induction on the edits. -/
theorem serve_edits {P : Text → Prop} {Q : Session → Prop}
    (hstep : ∀ (s s' : Session) (edit : Edit), s.InStep language config →
      edit.Admissible s.doc.text → P s.doc.text → P (edit.textAfter s.doc.text) →
      s.serveAll edit.requests = .ok s' → Q s → Q s')
    (hs : s.InStep language config) (hQ : Q s) {edits : List Edit}
    (ha : Edit.AllAdmissible s.doc.text edits) (hP : Edit.AllTexts P s.doc.text edits)
    (hrun : s.serveAll (edits.flatMap Edit.requests) = .ok s') :
    s'.InStep language config ∧ Q s' ∧ s'.doc.text = edits.foldl Edit.textAfter s.doc.text := by
  induction edits generalizing s with
  | nil =>
    cases hrun
    exact ⟨hs, hQ, rfl⟩
  | cons edit rest ih =>
    rw [List.flatMap_cons, serveAll_append] at hrun
    obtain ⟨s₁, hedit, hrest⟩ := bind_eq_ok.mp hrun
    obtain ⟨hs₁, htext⟩ := hs.serve_edit ha.1 hedit
    have hQ₁ := hstep s s₁ edit hs ha.1 hP.1 hP.2.start hedit hQ
    obtain ⟨hs', hQ', htext'⟩ := ih hs₁ hQ₁ (htext ▸ ha.2) (htext ▸ hP.2) hrest
    exact ⟨hs', hQ', by rw [htext', htext, List.foldl_cons]⟩

end InStep

/-! #### Documents that look new -/

/-- A highlighter that paints a document brings it up to date, if its local passes paint what a new
painter paints.

**Proof sketch.** The answer was a local pass, for which it is assumed, or a full one, which paints
what a new painter paints. Either way the painter knows the layout of a full pass. -/
lemma upToDate_of_answers {n : Option Notification} (ha : h.Answers doc n kind h' doc')
    (hh : h.Healthy) (hv : doc.text.Valid) (hp : h.profile = some profile)
    (hlocal : kind = .linesOnly →
      ∃ fresh, Painter.new.full profile (Buffer.new doc.text) = .ok (fresh, doc')) :
    UpToDate profile ⟨h', doc'⟩ := by
  have htext := (ha.paints.ordered hh hv).2
  obtain ⟨fresh, d, hfresh, hlayout, hnested⟩ := ha.fresh hh hv (ha.profile_eq.trans hp)
  have hpainted : ∃ fresh, Painter.new.full profile (Buffer.new doc.text) = .ok (fresh, doc') := by
    by_cases hkind : kind = .linesOnly
    · exact hlocal hkind
    · have hpaints := ha.paints
      generalize h'.painter = painter at hpaints
      cases hpaints with
      | plain hnone =>
        rw [hnone] at hp
        cases hp
      | full hprofile hfull =>
        obtain rfl := Option.some.inj (hprofile.symm.trans hp)
        obtain ⟨fresh, hnew, -⟩ := Painter.full_fresh (hh.sound hp) hv hfull
        exact ⟨fresh, hnew⟩
      | edit hprofile hold hn hrange hs hw hedit =>
        obtain rfl := Option.some.inj (hprofile.symm.trans hp)
        exact Painter.edit_thorough (hh.sound hp) hv hedit hkind
  obtain ⟨fresh', hfresh'⟩ := hpainted
  obtain ⟨rfl, rfl⟩ := Prod.mk.inj (Except.ok.inj (hfresh.symm.trans hfresh'))
  exact ⟨fresh, by rw [← hfresh, htext], hlayout, hnested⟩

/-- The first full pass leaves a session in step, and its document is up to date. -/
lemma of_highlight {text : Text} (hv : text.Valid)
    (hnew : (Session.new language config text).highlight = .ok s) :
    s.InStep language config ∧ s.doc.text = text ∧
      ∀ profile, config.profile? language = some profile → s.UpToDate profile := by
  have hh := (new_healthy hv language config).highlighter
  obtain ⟨⟨h, doc⟩, hpaint, hnew⟩ := bind_eq_ok.mp hnew
  cases hnew
  have hanswer := Highlighter.answers_of_highlightDocument hpaint none
  exact ⟨inStep_of_answers hanswer hh hv, (hanswer.paints.ordered hh hv).2, fun profile hp =>
    upToDate_of_answers hanswer hh hv hp fun hkind => by cases hkind⟩

/-- A document that is up to date looks as a new highlighter shows it. -/
lemma UpToDate.doc_eq {fresh : Session} (hup : s.UpToDate profile)
    (hp : config.profile? language = some profile)
    (hnew : (Session.new language config s.doc.text).highlight = .ok fresh) : fresh.doc = s.doc := by
  obtain ⟨painter, hfull, -⟩ := hup
  obtain ⟨painter', hfull'⟩ := painted_of_highlight hp hnew
  exact (Prod.mk.inj (Except.ok.inj (hfull'.symm.trans hfull))).2

/-- **One edit.** A document that is up to date is so again after an edit, if its profile keeps the
styles outside of the edit.

**Proof sketch.** The highlighter answers the edit by a local pass or paints all. A local pass
repaints the lines of the window. Inside of them it paints what a new painter paints, and outside of
them the profile keeps the styles. -/
theorem UpToDate.serve_edit (hup : s.UpToDate profile) (hs : s.InStep language config)
    (hp : config.profile? language = some profile) (hfirst : profile.HeredocsFirst) {edit : Edit}
    (ha : edit.Admissible s.doc.text)
    (hkeeps : profile.KeepsOutside (edit.textAfter s.doc.text) s.doc.text)
    (hrun : s.serveAll edit.requests = .ok s') : s'.UpToDate profile := by
  obtain ⟨edited, n, kind, hedited, htext, hn, hanswer⟩ :=
    edited_of_requests hs.healthy.valid ha hrun
  obtain ⟨fresh, hfull, hlayout, hnested⟩ := hup
  have hh := hs.healthy.highlighter
  have hprofile := hs.profile_eq.trans hp
  rw [← htext] at hkeeps
  refine upToDate_of_answers hanswer hh hedited.text.valid hprofile fun hkind => ?_
  subst hkind
  have hpaints := hanswer.paints
  generalize s'.highlighter.painter = painter at hpaints
  cases hpaints with
  | edit hp' hold hnote hrange hlines hw hedit =>
    obtain rfl := Option.some.inj (hp'.symm.trans hprofile)
    obtain rfl := Option.some.inj (hold.symm.trans hs.lastLength_eq)
    cases hnote
    exact Painter.edit_looksNew (hh.sound hp') hfirst hedited hkeeps hfull hlayout hnested hn hrange
      hlines hw hedit

/-- The runs that paint a document once and then edit it. -/
lemma highlight_of_serveAll {requests : List Request}
    (hserve : s.serveAll (.highlight :: requests) = .ok s') :
    ∃ s₁, s.highlight = .ok s₁ ∧ s₁.serveAll requests = .ok s' := by
  obtain ⟨answer, hanswer, hrest⟩ := bind_eq_ok.mp hserve
  obtain ⟨s₁, hnew, hanswer⟩ := bind_eq_ok.mp hanswer
  cases hanswer
  exact ⟨s₁, hnew, hrest⟩

/-- Edits leave no trace as long as the texts are of a kind for which the profile keeps the styles outside
of edits.

**Proof sketch.** The first full pass brings the document up to date (`of_highlight`), and every edit
keeps it so (`UpToDate.serve_edit`, `InStep.serve_edits`). A run of admissible requests within bounds
succeeds. -/
lemma looksNew_of_keepsOutside {text : Text} {edits : List Edit} {P : Text → Prop}
    (hp : language.profile? = some profile)
    (hkeeps : ∀ t t₀, P t → P t₀ → profile.KeepsOutside t t₀) (hv : text.Valid)
    (ha : Edit.AllAdmissible text edits) (hP : Edit.AllTexts P text edits) :
    (∀ s, (Session.new language .standard text).serveAll
        (.highlight :: edits.flatMap Edit.requests) = .ok s →
      s.doc.text = edits.foldl Edit.textAfter text ∧
      ∀ fresh, (Session.new language .standard s.doc.text).highlight = .ok fresh →
        fresh.doc = s.doc) ∧
    (2 * edits.length + 1 < 2 ^ 32 → Edit.AllTexts (fun t => t.size < 2 ^ 31) text edits →
      ∃ s fresh, (Session.new language .standard text).serveAll
          (.highlight :: edits.flatMap Edit.requests) = .ok s ∧
        (Session.new language .standard s.doc.text).highlight = .ok fresh ∧ fresh.doc = s.doc) := by
  have hprofile : Config.standard.profile? language = some profile :=
    (Language.profile?_standard language).trans hp
  -- every run that is served leaves the document up to date
  have hrun {s : Session} (hserve : (Session.new language .standard text).serveAll
      (.highlight :: edits.flatMap Edit.requests) = .ok s) :
      s.UpToDate profile ∧ s.doc.text = edits.foldl Edit.textAfter text := by
    obtain ⟨s₁, hfirst, hrest⟩ := highlight_of_serveAll hserve
    obtain ⟨hs₁, htext, hup₁⟩ := of_highlight hv hfirst
    rw [← htext] at ha hP ⊢
    exact (hs₁.serve_edits (Q := UpToDate profile) (fun s s' edit hs hadm hP hP' hedit hup =>
      hup.serve_edit hs hprofile (Language.heredocsFirst hp) hadm (hkeeps _ _ hP' hP) hedit)
      (hup₁ profile hprofile) ha hP hrest).2
  refine ⟨fun s hserve => ⟨(hrun hserve).2, fun fresh hnew => (hrun hserve).1.doc_eq hprofile hnew⟩,
    fun hcount hsizes => ?_⟩
  -- and within bounds there is such a run, and a fresh pass behind it
  have hlength := Edit.length_requests edits
  obtain ⟨s, hserve, hsound⟩ := serveAll_ensures (new_sound hv hsizes.start language .standard)
    (Nat.le_refl _) (.highlight :: edits.flatMap Edit.requests) (by rw [List.length_cons]; omega)
    ⟨trivial, Edit.allAdmissible_requests ha⟩ ⟨hsizes.start, Edit.allBelow_requests hsizes⟩
  obtain ⟨s', hserved, -⟩ := serveAll_ensures
    (new_sound hsound.valid hsound.size_lt language .standard) (Nat.le_refl _) [.highlight] (by simp)
    ⟨trivial, trivial⟩ ⟨hsound.size_lt, trivial⟩
  obtain ⟨fresh, hnew, -⟩ := highlight_of_serveAll hserved
  exact ⟨s, fresh, hserve, hnew, (hrun hserve).1.doc_eq hprofile hnew⟩

/-- **Edits leave no trace.** Take a document in one of the languages without embedded sections, or a
PHP document that never contains the mark of a section. It is painted once, and then it is edited any
number of times, at boundaries. After each edit the highlighter is told of it, by the notification that
the buffer returns or by one that says where something has changed. Then the document has the text that
the edits make, and it is styled as a new highlighter would style a new document with this text. It
does not matter which edits were served by local passes. Since the edits may be any, this holds after
each of them. As long as the counters have room, the run is served to its end, and so is the request to
the new highlighter.

**Proof sketch.** By induction on the edits the document stays up to date. One edit is served by a full
pass, by a repair, or by a local pass, and a local pass is kept only if full passes would show the same
styles outside of the edited lines before and after the edit. -/
theorem edits_looksNew {language : Language} {text : Text} (hv : text.Valid) {edits : List Edit}
    (ha : Edit.AllAdmissible text edits) (hflat : Edit.AllTexts language.EmbedsNothing text edits) :
    (∀ s, (Session.new language .standard text).serveAll
        (.highlight :: edits.flatMap Edit.requests) = .ok s →
      s.doc.text = edits.foldl Edit.textAfter text ∧
      ∀ fresh, (Session.new language .standard s.doc.text).highlight = .ok fresh →
        fresh.doc = s.doc) ∧
    (2 * edits.length + 1 < 2 ^ 32 → Edit.AllTexts (fun t => t.size < 2 ^ 31) text edits →
      ∃ s fresh, (Session.new language .standard text).serveAll
          (.highlight :: edits.flatMap Edit.requests) = .ok s ∧
        (Session.new language .standard s.doc.text).highlight = .ok fresh ∧ fresh.doc = s.doc) := by
  obtain ⟨profile, hp⟩ := hflat.start.exists_profile
  exact looksNew_of_keepsOutside hp (fun t t₀ h h₀ => h.keepsOutside h₀ hp) hv ha hflat

/-- A variable gets a longer name, the body of a heredoc becomes empty, and a blank comes first. Two of
these edits are served by local passes. -/
theorem edits_looksNew_perl :
    ∃ s fresh, (Session.new .perl .standard (Text.ofString "print <<A;\nx\nA\nmy $a;\n")).serveAll
        (.highlight :: [Edit.insert 20 (Text.ofString "b") (.changed false), .remove 11 1 .returned,
          .insert 0 (Text.ofString " ") .returned].flatMap Edit.requests) = .ok s ∧
      s.highlighter.metrics.localPasses = 2 ∧
      (Session.new .perl .standard s.doc.text).highlight = .ok fresh ∧ fresh.doc = s.doc := by
  have hperl (t : Text) : Language.perl.EmbedsNothing t := .inl (by simp [Language.flat])
  have ha : Edit.AllAdmissible (Text.ofString "print <<A;\nx\nA\nmy $a;\n")
      [.insert 20 (Text.ofString "b") (.changed false), .remove 11 1 .returned,
        .insert 0 (Text.ofString " ") .returned] :=
    ⟨⟨Text.valid_ofString _, by decide +kernel⟩, ⟨by decide +kernel, by decide +kernel⟩,
      ⟨Text.valid_ofString _, by decide +kernel⟩, trivial⟩
  obtain ⟨-, hserved⟩ := edits_looksNew (Text.valid_ofString _) ha
    ⟨hperl _, hperl _, hperl _, hperl _⟩
  obtain ⟨s, fresh, hrun, hnew, hdoc⟩ := hserved (by decide)
    ⟨by decide +kernel, by decide +kernel, by decide +kernel, by
      show Text.size _ < _
      decide +kernel⟩
  have hlocal : ((Session.new .perl .standard (Text.ofString "print <<A;\nx\nA\nmy $a;\n")).serveAll
      (.highlight :: [Edit.insert 20 (Text.ofString "b") (.changed false), .remove 11 1 .returned,
        .insert 0 (Text.ofString " ") .returned].flatMap Edit.requests)).toOption.any
          (fun s => s.highlighter.metrics.localPasses == 2) = true := by
    decide +kernel
  rw [hrun] at hlocal
  have hpasses : (s.highlighter.metrics.localPasses == 2) = true := hlocal
  exact ⟨s, fresh, hrun, by simpa using hpasses, hnew, hdoc⟩

/-- **What local passes miss.** A document in any language, with or without embedded sections, is
painted once and then edited any number of times, and the highlighter is told of every edit. After the
last edit the document looks as a new highlighter would paint it, or else a local pass was kept. In that
case the edited lines look as a new highlighter would paint them, and every other byte keeps the style
that it had before the edit. So what is wrong after an edit either was wrong before, or a new
highlighter styles the two texts in different ways outside of the edited lines.

**Proof sketch.** A full pass and a repair forget the past. A local pass paints in its section what a
full pass paints, and nothing outside of it. -/
theorem edit_looksNew_or_keeps {language : Language} {config : Config} {text : Text}
    (hv : text.Valid) {edits : List Edit} (ha : Edit.AllAdmissible text edits) {edit : Edit}
    {s s' fresh : Session}
    (hrun : (Session.new language config text).serveAll
      (.highlight :: edits.flatMap Edit.requests) = .ok s)
    (hadm : edit.Admissible s.doc.text) (hedit : s.serveAll edit.requests = .ok s')
    (hnew : (Session.new language config s'.doc.text).highlight = .ok fresh) :
    fresh.doc = s'.doc ∨
      ∃ w : EditWindow, w.Around s'.doc.text s.doc.text edit.pos edit.added edit.removed ∧
        (∀ i, w.start ≤ i → i < w.stop → s'.doc.styles[i]? = fresh.doc.styles[i]?) ∧
        (∀ i, i < w.start → s'.doc.styles[i]? = s.doc.styles[i]?) ∧
        ∀ k, s'.doc.styles[w.stop + k]? = s.doc.styles[w.oldStop + k]? := by
  obtain ⟨s₁, hfirst, hrest⟩ := highlight_of_serveAll hrun
  obtain ⟨hs₁, htext, -⟩ := of_highlight hv hfirst
  rw [← htext] at ha
  obtain ⟨hs, -⟩ := hs₁.serve_edits (P := fun _ => True) (Q := fun _ => True)
    (fun _ _ _ _ _ _ _ _ _ => trivial) trivial ha (Edit.allTexts fun _ => trivial) hrest
  obtain ⟨edited, n, kind, hedited, -, hn, hanswer⟩ :=
    edited_of_requests hs.healthy.valid hadm hedit
  have hh := hs.healthy.highlighter
  have htext' := (hanswer.paints.ordered hh hedited.text.valid).2
  -- only a local pass depends on what was painted before
  by_cases hkind : kind = .linesOnly
  · subst hkind
    have hpaints := hanswer.paints
    generalize s'.highlighter.painter = painter at hpaints
    cases hpaints with
    | edit hp hold hnote hrange hlines hw hpainted =>
      obtain rfl := Option.some.inj (hold.symm.trans hs.lastLength_eq)
      cases hnote
      obtain ⟨haround, hstart, hstop⟩ := EditWindow.around_of_tells hedited.text hn hrange hlines hw
      have hlies := ((Section.lines_ensures hedited.text.valid _ _).elim hlines).1
      rw [htext'] at hnew ⊢
      obtain ⟨painter', hfull⟩ := painted_of_highlight (hs.profile_eq.symm.trans hp) hnew
      exact .inr ⟨_, haround, Painter.styles_of_linesOnly (hh.sound hp) hedited haround hlies hstart
        hstop hfull hpainted⟩
  · left
    obtain ⟨fresh', hfresh, hdoc⟩ := looksNew_of_answers hanswer hh hedited.text.valid hkind
    rw [(hs.serve_edit hadm hedit).1.language_eq, hs.config_eq] at hfresh
    obtain rfl := Except.ok.inj (hnew.symm.trans hfresh)
    exact hdoc

end Session

end LexPaint
