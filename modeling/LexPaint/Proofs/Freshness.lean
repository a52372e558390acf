import LexPaint.Proofs.PassAgreement
import LexPaint.Proofs.PassFrame
import LexPaint.Proofs.RequestSteps

set_option relaxedAutoImplicit false
set_option autoImplicit false

/-!
# The state of lexing never drifts

What a painter knows of a document after a request is what a new painter would find in the text. It
does not matter how the request was served, which requests came before, and whether notifications
were right: every pass maps the whole document, and a local pass that was not enough is followed by
a full one.

## Main definitions

* `Painter.IsFresh`: a painter that knows of a text what a new one would find.
* `Request.IsServed`: the requests after which the document is painted.

## Main results

* `Painter.full_fresh`, `Painter.edit_fresh`: full and local passes leave a fresh painter.
* `Session.layout_eq_fresh`: so does every run of requests that ends with a served one.
-/

namespace LexPaint

/-! ### Passes -/

namespace Profile

variable {profile : Profile} {doc : Buffer}

/-- A pass over a section maps what a new painter would map in the whole text, and in the section it
paints what that one would paint.

**Proof sketch.** A pass over a section agrees with one over the whole document primitive by
primitive (`Primitive.runAll_agree`), and both start with an empty layout. -/
lemma runPass_agree (hprofile : profile.Sound) {start length : Nat} {detect : Bool}
    (hs : Scene.WellFormed ⟨doc.text, start, start + length, detect⟩) (layout : Layout)
    (nested : IntervalSet) :
    Alike (profile.runPass doc start length detect layout nested)
      (profile.runPass (Buffer.new doc.text) 0 doc.size false .empty .empty)
      (Pass.AgreeIfQuiet ⟨doc.text, start, start + length, detect⟩) := by
  unfold runPass
  have hwhole : (⟨(Buffer.new doc.text).text, 0, 0 + doc.size, false⟩ : Scene) =
      (⟨doc.text, start, start + length, detect⟩ : Scene).whole := by
    rw [Nat.zero_add]
    rfl
  dsimp only
  rw [hwhole]
  refine Primitive.runAll_agree hs profile.program true _ _ _ hprofile.2
    (Frame.wellFormed_document hs.valid _) rfl hprofile.1 (fun _ => ?_)
    ⟨rfl, Layout.historyOrdered_empty.fits_reset _ _⟩ ?_
  · intro h
    exact absurd (Text.lt_size_of_byteAt h) (Nat.lt_irrefl _)
  · refine ⟨⟨rfl, fun i h1 h2 => ?_⟩, .reset _ _, .reset _ _, rfl, rfl, fun _ => rfl⟩
    have hstop := hs.stop_le
    have hsize := doc.size_styles
    have hnew := (Buffer.new doc.text).size_styles
    have htext : (Buffer.new doc.text).text.size = doc.text.size := rfl
    dsimp only at h1 h2 hstop
    rw [Buffer.clear, Buffer.clear, Buffer.styles_paint, Buffer.styles_paint, if_pos (by omega),
      if_pos ⟨Nat.zero_le _, by show i < 0 + doc.text.size; omega, by omega⟩]

/-- A pass paints in its section only. -/
lemma runPass_painted {start length : Nat} {detect : Bool} {layout : Layout} {nested : IntervalSet}
    {pass : Pass} (hpass : profile.runPass doc start length detect layout nested = .ok pass) :
    Scene.Painted ⟨doc.text, start, start + length, detect⟩ (doc.clear start length) pass.canvas :=
  (Primitive.runAll_continues _ _ _ _ hpass).painted

/-- A pass changes no text. -/
lemma text_runPass {start length : Nat} {detect : Bool} {layout : Layout} {nested : IntervalSet}
    {pass : Pass} (hpass : profile.runPass doc start length detect layout nested = .ok pass) :
    pass.canvas.text = doc.text :=
  (runPass_painted hpass).text_eq

end Profile

/-! ### Painters -/

namespace Painter

variable {p p' : Painter} {profile : Profile} {doc doc' : Buffer}

/-- The painter knows what a new painter finds in a text. -/
def IsFresh (profile : Profile) (t : Text) (p : Painter) : Prop :=
  ∃ fresh doc, Painter.new.full profile (Buffer.new t) = .ok (fresh, doc) ∧
    p.layout = fresh.layout ∧ p.nested = fresh.nested

/-- A new painter finds something in every valid text.

**Proof sketch.** A sound profile runs on every valid document without a fault. -/
lemma exists_freshPass (hprofile : profile.Sound) {t : Text} (ht : t.Valid) :
    ∃ pass, profile.runPass (Buffer.new t) 0 t.size false .empty .empty = .ok pass ∧
      Painter.new.full profile (Buffer.new t) = .ok (Painter.new.commit pass, pass.canvas) := by
  have hscene : Scene.WellFormed ⟨(Buffer.new t).text, 0, 0 + t.size, false⟩ := by
    rw [Nat.zero_add]
    exact Scene.wellFormed_whole ht false
  obtain ⟨pass, hpass, -⟩ :=
    profile.runPass_ensures hprofile hscene Layout.historyOrdered_empty .empty
  refine ⟨pass, hpass, ?_⟩
  show (profile.runPass (Buffer.new t) 0 t.size false .empty .empty >>= fun pass =>
    .ok (Painter.new.commit pass, pass.canvas)) = _
  rw [hpass]
  rfl

/-- A full pass leaves a fresh painter, and it paints what a new one would paint.

**Proof sketch.** A full pass agrees with the pass of a new painter on what it maps, and on the
styles of the section, which is the whole document. -/
theorem full_fresh (hprofile : profile.Sound) (hdoc : doc.text.Valid)
    (hfull : p.full profile doc = .ok (p', doc')) :
    ∃ fresh, Painter.new.full profile (Buffer.new doc.text) = .ok (fresh, doc') ∧
      p'.layout = fresh.layout ∧ p'.nested = fresh.nested := by
  have hscene : Scene.WellFormed ⟨doc.text, 0, 0 + doc.size, false⟩ := by
    rw [Nat.zero_add]
    exact Scene.wellFormed_whole hdoc false
  obtain ⟨pass, hpass, hfull⟩ := bind_eq_ok.mp hfull
  cases hfull
  obtain ⟨fresh, hfresh, hnew⟩ := exists_freshPass hprofile hdoc
  have hagree := profile.runPass_agree hprofile hscene p.layout p.nested pass fresh hpass hfresh
    fun h => by cases h
  have hcanvas : pass.canvas = fresh.canvas := by
    refine Buffer.ext hagree.view.text (Array.ext_getElem? fun i => ?_)
    rcases Nat.lt_or_ge i doc.text.size with hlt | hge
    · exact hagree.view.styles i (Nat.zero_le _) (by show i < 0 + doc.text.size; omega)
    · have h1 := pass.canvas.size_styles
      rw [profile.text_runPass hpass] at h1
      rw [Array.getElem?_eq_none (by omega),
        Array.getElem?_eq_none (by rw [← hagree.view.size_eq]; omega)]
  refine ⟨Painter.new.commit fresh, ?_, hagree.layout.commit_eq, hagree.nested.commit_eq⟩
  rw [hcanvas]
  exact hnew

/-- A local pass that asked for no repair leaves a fresh painter, and in its section it paints what
a new painter would paint. -/
theorem commit_fresh (hprofile : profile.Sound) (hdoc : doc.text.Valid) {s : Section}
    (hs : s.Lies doc.text) {pass : Pass}
    (hpass : profile.runPass doc s.start s.length true p.layout p.nested = .ok pass)
    (hquiet : pass.repair = none) :
    ∃ fresh canvas, Painter.new.full profile (Buffer.new doc.text) = .ok (fresh, canvas) ∧
      (p.commit pass).layout = fresh.layout ∧ (p.commit pass).nested = fresh.nested ∧
      ∀ i, s.start ≤ i → i < s.stop → pass.canvas.styles[i]? = canvas.styles[i]? := by
  obtain ⟨fresh, hfresh, hnew⟩ := exists_freshPass hprofile hdoc
  have hagree := profile.runPass_agree hprofile (hs.scene hdoc true) p.layout p.nested pass fresh
    hpass hfresh fun _ => hquiet
  exact ⟨_, _, hnew, hagree.layout.commit_eq, hagree.nested.commit_eq, hagree.view.styles⟩

/-- A pass that is not followed by a full one has asked for no repair. -/
lemma quiet_of_escalation {pass : Pass} {w : EditWindow} (h : escalation pass w = .ok none) :
    pass.repair = none := by
  unfold escalation at h
  split at h
  · cases h
  · assumption

/-- An edit leaves a fresh painter, even if the window does not describe the edit.

**Proof sketch.** Either a full pass was run in the end, or the local pass asked for no repair. Both
leave a fresh painter (`full_fresh`, `commit_fresh`). -/
theorem edit_fresh (hprofile : profile.Sound) (hdoc : doc.text.Valid) {s : Section}
    (hs : s.Lies doc.text) {w : EditWindow} {kind : PassKind}
    (hedit : p.edit profile doc s w = .ok (kind, p', doc')) :
    p'.IsFresh profile doc.text := by
  rcases edit_eq_ok hedit with ⟨-, hfull⟩ | ⟨pass, hpass, hend⟩
  · obtain ⟨fresh, hnew, hl, hn⟩ := full_fresh hprofile hdoc hfull
    exact ⟨fresh, doc', hnew, hl, hn⟩
  · have htext := profile.text_runPass hpass
    rcases hend with ⟨-, hreason, rfl, rfl⟩ | ⟨reason, -, hreason, hfull⟩
    · have hquiet := quiet_of_escalation hreason
      obtain ⟨fresh, canvas, hnew, hl, hn, -⟩ := commit_fresh hprofile hdoc hs hpass hquiet
      exact ⟨fresh, canvas, hnew, hl, hn⟩
    · obtain ⟨fresh, hnew, hl, hn⟩ := full_fresh hprofile (htext ▸ hdoc) hfull
      exact ⟨fresh, doc', htext ▸ hnew, hl, hn⟩

end Painter

/-! ### Requests -/

/-- The requests after which the document is painted. -/
def Request.IsServed : Request → Prop
  | .highlight => True
  | .insert _ _ announced => announced = true
  | .remove _ _ announced => announced = true
  | .notify _ => True
  | .setLanguage _ => False
  | .paint _ _ _ => False

/-- A highlighter that serves a request leaves a fresh painter, if it has a profile.

**Proof sketch.** By cases on how the request was served: by a full pass or as an edit. -/
lemma Highlighter.Answers.fresh {h h' : Highlighter} {doc doc' : Buffer} {n : Option Notification}
    {kind : PassKind} (ha : h.Answers doc n kind h' doc') (hh : h.Healthy) (hv : doc.text.Valid)
    {profile : Profile} (hp : h'.profile = some profile) :
    h'.painter.IsFresh profile doc.text := by
  rw [ha.profile_eq] at hp
  have hpaints := ha.paints
  generalize h'.painter = painter at hpaints
  cases hpaints with
  | plain hnone =>
    rw [hnone] at hp
    cases hp
  | full hp' hfull =>
    obtain rfl := Option.some.inj (hp'.symm.trans hp)
    obtain ⟨fresh, hnew, hl, hn⟩ := Painter.full_fresh (hh.sound hp) hv hfull
    exact ⟨fresh, doc', hnew, hl, hn⟩
  | edit hp' hold hn hrange hs hw hedit =>
    obtain rfl := Option.some.inj (hp'.symm.trans hp)
    exact Painter.edit_fresh (hh.sound hp) hv ((Section.lines_ensures hv _ _).elim hs).1 hedit

namespace Session

variable {s s' : Session} {request : Request} {kind : Option PassKind}

/-- After a served request the painter is fresh.

**Proof sketch.** By cases on the request. One that is served ends with an answer of the highlighter
about the text after it. -/
lemma Steps.fresh (hstep : s.Steps request kind s') (hr : request.IsServed) (hs : s.Healthy)
    (ha : request.Admissible s.doc.text) {profile : Profile}
    (hp : s'.highlighter.profile = some profile) :
    s'.highlighter.painter.IsFresh profile s'.doc.text := by
  have hvalid := ha.valid_textAfter hs.valid
  have htext := (hstep.healthy hs ha).2
  rw [htext]
  cases hstep with
  | highlight hanswer => exact hanswer.fresh hs.highlighter hs.valid hp
  | insert he hanswer =>
    obtain ⟨hedit, -⟩ := (Buffer.insert_ensures ha.2).elim he
    have hfresh := hanswer.fresh hs.highlighter (hedit ▸ hvalid) hp
    dsimp only at hedit
    rwa [hedit] at hfresh
  | insertQuietly he => cases hr
  | remove he hanswer =>
    obtain ⟨hedit, -⟩ := (Buffer.remove_ensures ha.1 ha.2).elim he
    have hfresh := hanswer.fresh hs.highlighter (hedit ▸ hvalid) hp
    dsimp only at hedit
    rwa [hedit] at hfresh
  | removeQuietly he => cases hr
  | notify hanswer => exact hanswer.fresh hs.highlighter hs.valid hp
  | setLanguage language => cases hr
  | paint start length style => cases hr

/-- **The state of lexing never drifts from the text.** Take any run of requests that ends with one
after which the document is painted. The requests before it may be edits that nobody announced,
changes of the language, and notifications that are wrong. If the language in use has a profile, the
painter has then mapped exactly what a new painter maps in the text that is there now. The run is
served to its end as long as the counters have room.

**Proof sketch.** Every step leaves a healthy session, and a healthy session that serves a request
has a fresh painter: a full pass and a local pass that is kept map the same as a new painter. -/
theorem layout_eq_fresh (language : Language) (config : Config) {text : Text} (hv : text.Valid)
    {requests : List Request} (hr : request.IsServed)
    (ha : Request.AllAdmissible text (requests ++ [request])) :
    (∀ s, (Session.new language config text).serveAll (requests ++ [request]) = .ok s →
      ∀ profile, s.highlighter.profile = some profile →
        ∃ fresh doc, Painter.new.full profile (Buffer.new s.doc.text) = .ok (fresh, doc) ∧
          s.highlighter.painter.layout = fresh.layout ∧
          s.highlighter.painter.nested = fresh.nested) ∧
    (text.size < 2 ^ 31 → requests.length + 1 < 2 ^ 32 →
      Request.AllBelow (2 ^ 31) text (requests ++ [request]) →
        ∃ s, (Session.new language config text).serveAll (requests ++ [request]) = .ok s) := by
  have hhealthy := new_healthy hv language config
  refine ⟨fun s' hrun profile hp => ?_, fun hs hn hb => ?_⟩
  · rw [serveAll_append] at hrun
    obtain ⟨s, hbefore, hlast⟩ := bind_eq_ok.mp hrun
    obtain ⟨⟨reply, s₁⟩, hserve, hrest⟩ := bind_eq_ok.mp hlast
    cases hrest
    obtain ⟨hs, hadm⟩ := serveAll_healthy hhealthy ha hbefore
    exact (steps_of_serve hserve).fresh hr hs hadm.1 hp
  · obtain ⟨s, hrun, -⟩ := serveAll_ensures (new_sound hv hs language config) (Nat.le_refl _)
      (requests ++ [request]) (by simpa using hn) ha hb
    exact ⟨s, hrun⟩

/-- A block comment is closed and the highlighter hears of another edit: the layout is that of the
text all the same. -/
theorem layout_eq_fresh_java :
    ∃ s, (Session.new .java .standard (Text.ofString "a /* b")).serveAll
        ([.highlight, .insert 2 (Text.ofString "*/\n") false] ++ [.notify (.removed 1 4)]) = .ok s ∧
      ∃ profile, s.highlighter.profile = some profile ∧
        ∃ fresh doc, Painter.new.full profile (Buffer.new s.doc.text) = .ok (fresh, doc) ∧
          s.highlighter.painter.layout = fresh.layout ∧
          s.highlighter.painter.nested = fresh.nested := by
  have ha : Request.AllAdmissible (Text.ofString "a /* b")
      ([.highlight, .insert 2 (Text.ofString "*/\n") false] ++ [.notify (.removed 1 4)]) :=
    ⟨trivial, ⟨Text.valid_ofString _, by decide⟩, trivial, trivial⟩
  have hr : Request.IsServed (.notify (.removed 1 4)) := trivial
  obtain ⟨hfresh, hserved⟩ := layout_eq_fresh .java .standard (Text.valid_ofString _) hr ha
  obtain ⟨s, hrun⟩ := hserved (by decide) (by decide) ⟨by decide, by decide, by decide, trivial⟩
  have hsome : ((Session.new .java .standard (Text.ofString "a /* b")).serveAll
      ([.highlight, .insert 2 (Text.ofString "*/\n") false] ++
        [.notify (.removed 1 4)])).toOption.any (fun s => s.highlighter.profile.isSome) = true := by
    decide +kernel
  rw [hrun] at hsome
  obtain ⟨profile, hp⟩ := Option.isSome_iff_exists.mp hsome
  exact ⟨s, hrun, profile, hp, hfresh s hrun profile hp⟩

end Session

end LexPaint
