import LexPaint.Proofs.Freshness

set_option relaxedAutoImplicit false
set_option autoImplicit false

/-!
# A full pass forgets the past

A document that was painted by a full pass looks as a new highlighter would paint it. It does not
matter what the highlighter has seen before, how the document was styled, and whether a local pass
came first that painted half of the edited lines and then asked for a repair: the full pass clears the
whole document, and no step of it looks at the history. The same holds of plain text, which a full
pass only clears.

## Main definitions

* `Session.LooksNew`: the document looks as a new highlighter would paint it.
* `Notification.Fits`: the notifications that lead to a section and a window.

## Main results

* `Painter.edit_thorough`: an edit that is not served by a local pass alone.
* `Highlighter.Answers.looksNew`: full passes and repairs forget the past.
* `Session.fullPass_forgets`: the same after any run of requests.
-/

namespace LexPaint

/-! ### Painters -/

/-- An edit that is not served by a local pass alone leaves the document as a new painter would paint
it.

**Proof sketch.** A full pass came last. It is not disturbed by the local pass before it, which has
only changed styles and the sets of the painter. -/
lemma Painter.edit_thorough {p p' : Painter} {profile : Profile} {doc doc' : Buffer} {s : Section}
    {w : EditWindow} {kind : PassKind} (hprofile : profile.Sound) (hdoc : doc.text.Valid)
    (hedit : p.edit profile doc s w = .ok (kind, p', doc')) (hkind : kind ≠ .linesOnly) :
    ∃ fresh, Painter.new.full profile (Buffer.new doc.text) = .ok (fresh, doc') := by
  rcases edit_eq_ok hedit with ⟨-, hfull⟩ | ⟨pass, hpass, hend⟩
  · obtain ⟨fresh, hnew, -⟩ := full_fresh hprofile hdoc hfull
    exact ⟨fresh, hnew⟩
  · rcases hend with ⟨hlines, -⟩ | ⟨reason, -, -, hfull⟩
    · exact absurd hlines hkind
    · have htext := profile.text_runPass hpass
      obtain ⟨fresh, hnew, -⟩ := full_fresh hprofile (htext ▸ hdoc) hfull
      exact ⟨fresh, htext ▸ hnew⟩

/-- Clearing all of a document leaves nothing of its styles.

**Proof sketch.** Every byte gets the plain style in both. -/
lemma Buffer.clear_whole (doc : Buffer) :
    doc.clear 0 doc.size = (Buffer.new doc.text).clear 0 doc.size := by
  have hsize := doc.size_styles
  have hnew := (Buffer.new doc.text).size_styles
  refine Buffer.ext rfl (Array.ext_getElem? fun i => ?_)
  rw [clear, clear, styles_paint, styles_paint]
  by_cases hi : i < doc.text.size
  · have htext : (Buffer.new doc.text).text.size = doc.text.size := rfl
    have hend : i < 0 + doc.size := by rwa [Nat.zero_add]
    rw [if_pos ⟨Nat.zero_le i, hend, by omega⟩, if_pos ⟨Nat.zero_le i, hend, by omega⟩]
  · have htext : (Buffer.new doc.text).text.size = doc.text.size := rfl
    rw [if_neg (by omega), if_neg (by omega), Array.getElem?_eq_none (by omega),
      Array.getElem?_eq_none (by omega)]

/-! ### Highlighters -/

/-- Counters that have held a pass over a whole document hold it as the first one.

**Proof sketch.** The counters that were accepted hold more bytes and more passes than those of a
first pass. -/
lemma Metrics.record_zero {m m' : Metrics} {kind : PassKind} {length : Nat}
    (hrecord : m.record kind 0 length = .ok m') (hkind : kind ≠ .linesOnly) :
    ∃ first, Metrics.zero.record .full 0 length = .ok first := by
  obtain ⟨-, hfits, -⟩ := accept_eq_ok_iff.mp hrecord
  have hbytes : length ≤ (m.withPass kind 0 length).bytesRescanned := by
    unfold withPass refreshAverage countPass
    cases kind with
    | full => dsimp only; split <;> dsimp only <;> omega
    | linesOnly => exact absurd rfl hkind
    | repair => dsimp only; split <;> dsimp only <;> omega
  simp only [fits, Bool.and_eq_true, decide_eq_true_eq] at hfits
  have hone : (Metrics.zero.withPass .full 0 length).passes = 1 := by
    simp [withPass, refreshAverage, countPass, passes, zero]
  refine ⟨_, accept_eq_ok_iff.mpr ⟨rfl, ?_, hasDivisor_of_lt (by omega)⟩⟩
  have hlength : (Metrics.zero.withPass .full 0 length).bytesRescanned = length := by
    simp [withPass, refreshAverage, countPass, passes, zero]
  have htime : (Metrics.zero.withPass .full 0 length).totalTime = 0 := by
    simp [withPass, refreshAverage, countPass, passes, zero]
  simp only [fits, Bool.and_eq_true, decide_eq_true_eq, hone, hlength, htime]
  exact ⟨⟨by decide, by omega⟩, by decide⟩

namespace Highlighter

variable {h h' : Highlighter} {doc doc' : Buffer} {n : Option Notification} {kind : PassKind}

/-- **Full passes forget the past.** After a full pass or a repair the document looks as a new
highlighter for the same language and settings would paint it.

**Proof sketch.** A new highlighter has the same profile and paints by a full pass. An edit that was
not served by a local pass alone has the outcome of a full pass (`Painter.edit_thorough`). Without a
profile both clear the document. -/
theorem Answers.looksNew (ha : h.Answers doc n kind h' doc') (hh : h.Healthy) (hv : doc.text.Valid)
    (hkind : kind ≠ .linesOnly) :
    ∃ fresh, (Highlighter.new h.language h.config).highlightDocument (Buffer.new doc.text) =
      .ok (fresh, doc') := by
  obtain ⟨first, hfirst⟩ := Metrics.record_zero ha.counted hkind
  have hprofile : (Highlighter.new h.language h.config).profile = h.profile := hh.profile_eq.symm
  -- what is left to show is what the document looks like
  have hplain (hp : h.profile = none) :
      ∃ fresh, (Highlighter.new h.language h.config).highlightDocument (Buffer.new doc.text) =
        .ok (fresh, doc.clear 0 doc.size) := by
    rw [Buffer.clear_whole]
    unfold highlightDocument finish
    rw [hprofile, hp]
    dsimp only
    show ∃ fresh, ((Metrics.zero.record .full 0 doc.size >>= fun metrics => _) >>= _) = _
    rw [hfirst]
    exact ⟨_, rfl⟩
  have hpainted {profile : Profile} (hp : h.profile = some profile) {painter : Painter}
      (hfull : Painter.new.full profile (Buffer.new doc.text) = .ok (painter, doc')) :
      ∃ fresh, (Highlighter.new h.language h.config).highlightDocument (Buffer.new doc.text) =
        .ok (fresh, doc') := by
    unfold highlightDocument finish
    rw [hprofile, hp]
    dsimp only
    show ∃ fresh, (Painter.new.full profile (Buffer.new doc.text) >>= _) = _
    rw [hfull]
    show ∃ fresh, ((Metrics.zero.record .full 0 doc.size >>= fun metrics => _) >>= _) = _
    rw [hfirst]
    exact ⟨_, rfl⟩
  have hpaints := ha.paints
  generalize h'.painter = painter at hpaints
  -- without a profile the document is plain, and otherwise a new painter would paint the same
  cases hpaints with
  | plain hp => exact hplain hp
  | full hp hfull =>
    obtain ⟨fresh, hnew, -⟩ := Painter.full_fresh (hh.sound hp) hv hfull
    exact hpainted hp hnew
  | edit hp hold hn hrange hs hw hedit =>
    obtain ⟨fresh, hnew⟩ := Painter.edit_thorough (hh.sound hp) hv hedit hkind
    exact hpainted hp hnew

end Highlighter

/-! ### Notifications -/

/-- The notification leads to a section of the document and to a window for it, if the document had
`oldLength` bytes after the last pass. -/
def Notification.Fits (n : Notification) (doc : Text) (oldLength : Nat) : Prop :=
  ∃ range s w, n.editedRange doc oldLength = some range ∧ Section.lines doc range.1 range.2 = .ok s ∧
    EditWindow.ofSection? s oldLength doc.size = some w

/-- A notification that does not fit the document is served by a full pass.

**Proof sketch.** By cases on how the request was served. As an edit it is served only if the
notification fits. -/
lemma Highlighter.Answers.full_of_misfit {h h' : Highlighter} {doc doc' : Buffer} {n : Notification}
    {kind : PassKind} (ha : h.Answers doc (some n) kind h' doc')
    (hmisfit : ∀ oldLength, h.lastLength = some oldLength → ¬ n.Fits doc.text oldLength) :
    kind = .full := by
  have hpaints := ha.paints
  generalize h'.painter = painter at hpaints
  cases hpaints with
  | plain hp => rfl
  | full hp hfull => rfl
  | edit hp hold hn hrange hs hw hedit =>
    cases hn
    exact absurd ⟨_, _, _, hrange, hs, hw⟩ (hmisfit _ hold)

/-! ### Sessions -/

namespace Session

/-- The document looks as a new highlighter with these settings would paint it. -/
def LooksNew (config : Config) (s : Session) : Prop :=
  ∃ fresh, (Session.new s.highlighter.language config s.doc.text).highlight = .ok fresh ∧
    fresh.doc = s.doc

variable {s s' : Session} {request : Request}

/-- A session whose highlighter has answered by a full pass or a repair looks new. -/
lemma looksNew_of_answers {h h' : Highlighter} {doc doc' : Buffer} {n : Option Notification}
    {kind : PassKind} (ha : h.Answers doc n kind h' doc') (hh : h.Healthy) (hv : doc.text.Valid)
    (hkind : kind ≠ .linesOnly) : LooksNew h.config ⟨h', doc'⟩ := by
  obtain ⟨fresh, hnew⟩ := ha.looksNew hh hv hkind
  have htext := (ha.paints.ordered hh hv).2
  refine ⟨⟨fresh, doc'⟩, ?_, rfl⟩
  rw [ha.language_eq, htext]
  show ((Highlighter.new h.language h.config).highlightDocument (Buffer.new doc.text) >>= _) = _
  rw [hnew]
  rfl

/-- A step that was not served by a local pass alone leaves a document that looks new.

**Proof sketch.** By cases on the request, with the answer of the highlighter. -/
lemma Steps.looksNew {kind : PassKind} (hstep : s.Steps request (some kind) s') (hs : s.Healthy)
    (ha : request.Admissible s.doc.text) (hkind : kind ≠ .linesOnly) :
    s'.LooksNew s.highlighter.config := by
  have hvalid := ha.valid_textAfter hs.valid
  cases hstep with
  | highlight hanswer => exact looksNew_of_answers hanswer hs.highlighter hs.valid hkind
  | insert he hanswer =>
    have hedit := ((Buffer.insert_ensures ha.2).elim he).1
    exact looksNew_of_answers hanswer hs.highlighter (hedit ▸ hvalid) hkind
  | remove he hanswer =>
    have hedit := ((Buffer.remove_ensures ha.1 ha.2).elim he).1
    exact looksNew_of_answers hanswer hs.highlighter (hedit ▸ hvalid) hkind
  | notify hanswer => exact looksNew_of_answers hanswer hs.highlighter hs.valid hkind

/-- No request changes the settings.

**Proof sketch.** By cases on the request. -/
lemma Steps.config_eq {kind : Option PassKind} (hstep : s.Steps request kind s') :
    s'.highlighter.config = s.highlighter.config := by
  cases hstep with
  | highlight ha => exact ha.config_eq
  | insert he ha => exact ha.config_eq
  | insertQuietly he => rfl
  | remove he ha => exact ha.config_eq
  | removeQuietly he => rfl
  | notify ha => exact ha.config_eq
  | setLanguage language => rfl
  | paint start length style => rfl

/-- A full pass over a document that a full pass has just painted changes nothing.

**Proof sketch.** The second pass finds the document as the first one has left it, and both paint
what a new highlighter would paint in the same text. -/
lemma highlight_twice {s₁ s₂ : Session} {reply reply' : Reply} (hs : s.Healthy)
    (h₁ : s.serve .highlight = .ok (reply, s₁)) (h₂ : s₁.serve .highlight = .ok (reply', s₂)) :
    s₂.doc = s₁.doc := by
  have hstep₁ := steps_of_serve h₁
  have hstep₂ := steps_of_serve h₂
  obtain ⟨hs₁, htext₁⟩ := hstep₁.healthy hs trivial
  have htext₂ := (hstep₂.healthy hs₁ trivial).2
  have hconfig := hstep₁.config_eq
  have hlanguage : s₂.highlighter.language = s₁.highlighter.language := by
    generalize reply'.kind = kind at hstep₂
    cases hstep₂ with
    | highlight ha => exact ha.language_eq
  generalize reply.kind = kind at hstep₁
  generalize reply'.kind = kind' at hstep₂
  cases kind with
  | none => cases hstep₁
  | some kind =>
    cases kind' with
    | none => cases hstep₂
    | some kind' =>
      have hkind : kind ≠ .linesOnly := by cases hstep₁; simp
      have hkind' : kind' ≠ .linesOnly := by cases hstep₂; simp
      obtain ⟨fresh₁, hnew₁, hdoc₁⟩ := hstep₁.looksNew hs trivial hkind
      obtain ⟨fresh₂, hnew₂, hdoc₂⟩ := hstep₂.looksNew hs₁ trivial hkind'
      rw [hlanguage, htext₂, hconfig] at hnew₂
      obtain rfl := Except.ok.inj (hnew₁.symm.trans hnew₂)
      exact hdoc₂.symm.trans hdoc₁

/-- **A full pass forgets the past.** A highlighter starts with any document, styled in any way, and
serves any run of requests. Then it is given any document, again styled in any way. Whatever it is
asked next, if it answers that it made a full pass or a repair, then the document looks as a new
highlighter for the same language and settings would paint it. A second full pass changes nothing
after a first one, and a notification that does not fit the document leads to a full pass. As long as
the counters have room, requests are served.

**Proof sketch.** The run leaves a healthy highlighter, and a healthy highlighter makes full passes
that do not depend on its history. -/
theorem fullPass_forgets (language : Language) (config : Config) {start : Buffer}
    (hstart : start.text.Valid) {requests : List Request}
    (ha : Request.AllAdmissible start.text requests) {past : Session}
    (hpast : (⟨.new language config, start⟩ : Session).serveAll requests = .ok past)
    {doc : Buffer} (hdoc : doc.text.Valid) :
    (∀ request reply s', request.Admissible doc.text →
      (⟨past.highlighter, doc⟩ : Session).serve request = .ok (reply, s') →
      reply.kind = some .full ∨ reply.kind = some .repair → s'.LooksNew config) ∧
    (∀ reply s₁ reply' s₂, (⟨past.highlighter, doc⟩ : Session).serve .highlight = .ok (reply, s₁) →
      s₁.serve .highlight = .ok (reply', s₂) → s₁.LooksNew config ∧ s₂.doc = s₁.doc) ∧
    (∀ n reply s',
      (∀ oldLength, past.highlighter.lastLength = some oldLength → ¬ n.Fits doc.text oldLength) →
      (⟨past.highlighter, doc⟩ : Session).serve (.notify n) = .ok (reply, s') →
      reply.kind = some .full ∧ s'.LooksNew config) ∧
    (start.text.size < 2 ^ 31 → doc.text.size < 2 ^ 31 → Request.AllBelow (2 ^ 31) start.text requests →
      ∀ next : List Request, requests.length + next.length < 2 ^ 32 →
        Request.AllAdmissible doc.text next → Request.AllBelow (2 ^ 31) doc.text next →
        ∃ s', (⟨past.highlighter, doc⟩ : Session).serveAll next = .ok s') := by
  have hbegin : (⟨.new language config, start⟩ : Session).Healthy :=
    ⟨hstart, rfl, Layout.historyOrdered_empty⟩
  have hall : Request.AllAdmissible start.text (requests ++ []) := by simpa using ha
  obtain ⟨hhealthy, -, hconfig⟩ := serveAll_invariant (Q := fun s => s.highlighter.config = config)
    (fun _ _ _ _ _ _ hstep h => hstep.config_eq.trans h) hbegin hall hpast rfl
  have hs : (⟨past.highlighter, doc⟩ : Session).Healthy := ⟨hdoc, hhealthy.highlighter⟩
  have hlooks : ∀ request reply s', request.Admissible doc.text →
      (⟨past.highlighter, doc⟩ : Session).serve request = .ok (reply, s') →
      reply.kind = some .full ∨ reply.kind = some .repair → s'.LooksNew config := by
    intro request reply s' hadm hserve hkind
    have hstep := steps_of_serve hserve
    rw [← hconfig]
    rcases hkind with hkind | hkind
    · rw [hkind] at hstep
      exact hstep.looksNew hs hadm (by simp)
    · rw [hkind] at hstep
      exact hstep.looksNew hs hadm (by simp)
  refine ⟨hlooks, fun reply s₁ reply' s₂ h₁ h₂ => ?_, fun n reply s' hmisfit hserve => ?_,
    fun hsize hsize' hbelow next hlen hadm hbelow' => ?_⟩
  · have hkind : reply.kind = some .full := by
      obtain ⟨_, -, h₁⟩ := bind_eq_ok.mp h₁
      cases h₁
      rfl
    exact ⟨hlooks .highlight _ _ trivial h₁ (.inl hkind), highlight_twice hs h₁ h₂⟩
  · have hkind : reply.kind = some .full := by
      have hstep := steps_of_serve hserve
      generalize reply.kind = kind at hstep
      cases hstep with
      | notify hanswer => rw [hanswer.full_of_misfit hmisfit]
    exact ⟨hkind, hlooks (.notify n) _ _ trivial hserve (.inl hkind)⟩
  · -- the counters hold what the past and the next requests add up to
    have hsound : (⟨.new language config, start⟩ : Session).Sound (2 ^ 31) 0 :=
      ⟨hstart, hsize, rfl, Layout.historyOrdered_empty, Metrics.within_zero _⟩
    have hafter := (serveAll_ensures hsound (Nat.le_refl _) requests (by omega) ha hbelow).elim hpast
    rw [Nat.zero_add] at hafter
    obtain ⟨s', hrun, -⟩ := serveAll_ensures (s := ⟨past.highlighter, doc⟩)
      ⟨hdoc, hsize', hafter.highlighter⟩ (Nat.le_refl _) next hlen hadm hbelow'
    exact ⟨s', hrun⟩

/-- A comment mark is removed without notice, and a notification puts the edit in another line. -/
theorem fullPass_forgets_java :
    ∃ past reply s', (⟨.new .java .standard, Buffer.new (Text.ofString "a\n/* b\nc")⟩ :
        Session).serveAll [.highlight, .remove 2 3 false, .paint 0 2 .keyword] = .ok past ∧
      (⟨past.highlighter, (Buffer.new (Text.ofString "a\nb\nc")).paint 1 3 .comment⟩ : Session).serve
        (.notify (.removed 0 3)) = .ok (reply, s') ∧
      reply.kind = some .repair ∧ s'.LooksNew .standard := by
  have hstart : (Buffer.new (Text.ofString "a\n/* b\nc")).text.Valid := Text.valid_ofString _
  have hdoc : ((Buffer.new (Text.ofString "a\nb\nc")).paint 1 3 .comment).text.Valid :=
    Text.valid_ofString _
  have ha : Request.AllAdmissible (Buffer.new (Text.ofString "a\n/* b\nc")).text
      [.highlight, .remove 2 3 false, .paint 0 2 .keyword] :=
    ⟨trivial, ⟨by decide, by decide⟩, trivial, trivial⟩
  have hrun : (do
      let past ← (⟨.new .java .standard, Buffer.new (Text.ofString "a\n/* b\nc")⟩ :
        Session).serveAll [.highlight, .remove 2 3 false, .paint 0 2 .keyword]
      let r ← (⟨past.highlighter, (Buffer.new (Text.ofString "a\nb\nc")).paint 1 3 .comment⟩ :
        Session).serve (.notify (.removed 0 3))
      demand (r.1.kind = some PassKind.repair) .outOfRange) = .ok () := by
    decide +kernel
  obtain ⟨past, hpast, hrun⟩ := bind_eq_ok.mp hrun
  obtain ⟨⟨reply, s'⟩, hserve, hrun⟩ := bind_eq_ok.mp hrun
  have hkind : reply.kind = some .repair := by simpa using demand_eq_ok_iff.mp hrun
  obtain ⟨hlooks, -⟩ := fullPass_forgets .java .standard hstart ha hpast hdoc
  exact ⟨past, reply, s', hpast, hserve, hkind,
    hlooks (.notify (.removed 0 3)) _ _ trivial hserve (.inr hkind)⟩

end Session

end LexPaint
