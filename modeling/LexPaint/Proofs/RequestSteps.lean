import LexPaint.Proofs.RequestSafety

set_option relaxedAutoImplicit false
set_option autoImplicit false

/-!
# What a request does

A request that is served has done one of a few things: the document was edited or not, and then it
was lexed and painted by a full pass, by a local pass, or not at all. This file says it once, so
that invariants of sessions need not open the definitions again.

## Main definitions

* `Highlighter.Paints`, `Highlighter.Answers`: how a highlighter serves a request.
* `Session.Steps`: what a request does to a session.
* `Session.Healthy`: what holds of a session at all times, apart from its counters.

## Main results

* `Session.steps_of_serve`: a request that was served has made one of these steps.
* `Session.Steps.healthy`: steps keep sessions healthy.
-/

namespace LexPaint

/-! ### Highlighters -/

namespace Highlighter

/-- How a highlighter lexes and paints a document: as plain text, by a full pass, or as the document
after the edit that a notification describes. -/
inductive Paints (h : Highlighter) (doc : Buffer) (n : Option Notification) :
    PassKind → Painter → Buffer → Prop
  | plain (hp : h.profile = none) : Paints h doc n .full h.painter (doc.clear 0 doc.size)
  | full {profile : Profile} {painter : Painter} {doc' : Buffer} (hp : h.profile = some profile)
    (hfull : h.painter.full profile doc = .ok (painter, doc')) : Paints h doc n .full painter doc'
  | edit {profile : Profile} {note : Notification} {oldLength first last : Nat} {s : Section}
    {w : EditWindow} {kind : PassKind} {painter : Painter} {doc' : Buffer}
    (hp : h.profile = some profile) (hold : h.lastLength = some oldLength) (hn : n = some note)
    (hrange : note.editedRange doc.text oldLength = some (first, last))
    (hs : Section.lines doc.text first last = .ok s)
    (hw : EditWindow.ofSection? s oldLength doc.size = some w)
    (hedit : h.painter.edit profile doc s w = .ok (kind, painter, doc')) :
    Paints h doc n kind painter doc'

/-- What a highlighter does with a document, given the notification of an edit or none, and the kind
of pass that it answers. -/
structure Answers (h : Highlighter) (doc : Buffer) (n : Option Notification) (kind : PassKind)
    (h' : Highlighter) (doc' : Buffer) : Prop where
  language_eq : h'.language = h.language
  profile_eq : h'.profile = h.profile
  config_eq : h'.config = h.config
  lastLength_eq : h'.lastLength = some doc.size
  counted : h.metrics.record kind 0 doc.size = .ok h'.metrics
  paints : h.Paints doc n kind h'.painter doc'

variable {h h' : Highlighter} {doc doc' : Buffer} {kind : PassKind}

/-- Finishing a pass counts it and keeps the length of the document. -/
lemma finish_eq_ok {length : Nat} (hf : h.finish kind length = .ok h') :
    ∃ metrics, h.metrics.record kind 0 length = .ok metrics ∧
      h' = { h with metrics, lastLength := some length } := by
  obtain ⟨metrics, hm, hf⟩ := bind_eq_ok.mp hf
  cases hf
  exact ⟨metrics, hm, rfl⟩

/-- Highlighting a document is a full pass, or plain text without a profile. -/
lemma answers_of_highlightDocument (hd : h.highlightDocument doc = .ok (h', doc'))
    (n : Option Notification) : h.Answers doc n .full h' doc' := by
  unfold highlightDocument at hd
  dsimp only at hd
  split at hd
  · rename_i profile hp
    obtain ⟨⟨painter, d⟩, hfull, hd⟩ := bind_eq_ok.mp hd
    obtain ⟨h₁, hfinish, hd⟩ := bind_eq_ok.mp hd
    cases hd
    obtain ⟨metrics, hm, rfl⟩ := finish_eq_ok hfinish
    exact ⟨rfl, rfl, rfl, rfl, hm, .full hp hfull⟩
  · rename_i hp
    obtain ⟨h₁, hfinish, hd⟩ := bind_eq_ok.mp hd
    cases hd
    obtain ⟨metrics, hm, rfl⟩ := finish_eq_ok hfinish
    exact ⟨rfl, rfl, rfl, rfl, hm, .plain hp⟩

/-- Where an edit cannot be served as such, the document is highlighted. -/
lemma answers_of_fallBack {fallback : Option Fallback} {served : Served}
    (hf : h.fallBack doc fallback = .ok served) (n : Option Notification) :
    h.Answers doc n served.kind served.highlighter served.doc := by
  obtain ⟨⟨h₁, d⟩, hd, hf⟩ := bind_eq_ok.mp hf
  cases hf
  exact answers_of_highlightDocument hd n

/-- An edit is served by a pass over its section, or by highlighting the document. -/
lemma answers_of_highlightEdit {n : Notification} {served : Served}
    (he : h.highlightEdit doc n = .ok served) :
    h.Answers doc (some n) served.kind served.highlighter served.doc := by
  unfold highlightEdit at he
  split at he
  · rename_i profile oldLength hp hold _
    unfold serveEdit at he
    split at he
    · exact answers_of_fallBack he _
    · rename_i first last hrange
      obtain ⟨s, hs, he⟩ := bind_eq_ok.mp he
      split at he
      · exact answers_of_fallBack he _
      · rename_i w hw
        obtain ⟨⟨kind, painter, d⟩, hedit, he⟩ := bind_eq_ok.mp he
        obtain ⟨h₁, hfinish, he⟩ := bind_eq_ok.mp he
        cases he
        obtain ⟨metrics, hm, rfl⟩ := finish_eq_ok hfinish
        exact ⟨rfl, rfl, rfl, rfl, hm, .edit hp hold rfl hrange hs hw hedit⟩
  · exact answers_of_fallBack he _

end Highlighter

/-! ### Edits -/

namespace Painter

variable {p p' : Painter} {profile : Profile} {doc doc' : Buffer} {s : Section} {w : EditWindow}
variable {kind : PassKind}

/-- A painter paints an edited document by a full pass, by a local pass that was enough, or by a
full pass after one that was not.

**Proof sketch.** By cases on whether there is a history and on whether a repair was asked for. -/
lemma edit_eq_ok (he : p.edit profile doc s w = .ok (kind, p', doc')) :
    kind = .full ∧ p.full profile doc = .ok (p', doc') ∨
      ∃ pass, profile.runPass doc s.start s.length true p.layout p.nested = .ok pass ∧
        (kind = .linesOnly ∧ escalation pass w = .ok none ∧ p' = p.commit pass ∧
            doc' = pass.canvas ∨
          ∃ reason, kind = .repair ∧ escalation pass w = .ok (some reason) ∧
            full ⟨pass.layout, pass.nested, some reason⟩ profile pass.canvas = .ok (p', doc')) := by
  unfold edit at he
  split at he
  · obtain ⟨⟨q, d⟩, hfull, he⟩ := bind_eq_ok.mp he
    cases he
    exact .inl ⟨rfl, hfull⟩
  · obtain ⟨pass, hpass, he⟩ := bind_eq_ok.mp he
    obtain ⟨reason, hreason, he⟩ := bind_eq_ok.mp he
    refine .inr ⟨pass, hpass, ?_⟩
    cases reason with
    | none =>
      cases he
      exact .inl ⟨rfl, hreason, rfl, rfl⟩
    | some reason =>
      obtain ⟨⟨q, d⟩, hfull, he⟩ := bind_eq_ok.mp he
      cases he
      exact .inr ⟨reason, rfl, hreason, hfull⟩

end Painter

/-! ### Health -/

/-- The profile is that of the language, and the history of the painter can be compared with. -/
structure Highlighter.Healthy (h : Highlighter) : Prop where
  profile_eq : h.profile = h.config.profile? h.language
  history : h.painter.layout.HistoryOrdered

namespace Highlighter

variable {h h' : Highlighter} {doc doc' : Buffer} {n : Option Notification} {kind : PassKind}

/-- The profile of a healthy highlighter is sound. -/
lemma Healthy.sound (hh : h.Healthy) {profile : Profile} (hp : h.profile = some profile) :
    profile.Sound :=
  Config.profile?_sound (hh.profile_eq ▸ hp)

/-- Painting keeps the history in order, and it keeps the text. -/
lemma Paints.ordered {painter : Painter} (hpaints : h.Paints doc n kind painter doc') (hh : h.Healthy)
    (hv : doc.text.Valid) : painter.layout.HistoryOrdered ∧ doc'.text = doc.text := by
  cases hpaints with
  | plain hp => exact ⟨hh.history, rfl⟩
  | full hp hfull => exact (Painter.full_ensures (hh.sound hp) hv hh.history).elim hfull
  | edit hp hold hn hrange hs hw hedit =>
    have hlies := (Section.lines_ensures hv _ _).elim hs
    exact (Painter.edit_ensures (hh.sound hp) hv hh.history hlies.1 _).elim hedit

/-- Serving a request keeps a highlighter healthy. -/
lemma Answers.healthy (ha : h.Answers doc n kind h' doc') (hh : h.Healthy) (hv : doc.text.Valid) :
    h'.Healthy := by
  refine ⟨?_, (ha.paints.ordered hh hv).1⟩
  rw [ha.profile_eq, ha.config_eq, ha.language_eq]
  exact hh.profile_eq

/-- A highlighter is healthy after a change of the language. -/
lemma healthy_setLanguage (h : Highlighter) (language : Language) :
    (h.setLanguage language).Healthy :=
  ⟨rfl, h.painter.layout.historyOrdered_clearHistory⟩

end Highlighter

/-! ### Sessions -/

namespace Session

/-- What a request does to a session, and how the document was painted then, if it was. -/
inductive Steps (s : Session) : Request → Option PassKind → Session → Prop
  | highlight {h : Highlighter} {doc : Buffer} (ha : s.highlighter.Answers s.doc none .full h doc) :
    Steps s .highlight (some .full) ⟨h, doc⟩
  | insert {pos : Nat} {u : Text} {edited doc : Buffer} {n : Notification} {kind : PassKind}
    {h : Highlighter} (he : s.doc.insert pos u = .ok (edited, n))
    (ha : s.highlighter.Answers edited (some n) kind h doc) :
    Steps s (.insert pos u true) (some kind) ⟨h, doc⟩
  | insertQuietly {pos : Nat} {u : Text} {edited : Buffer} {n : Notification}
    (he : s.doc.insert pos u = .ok (edited, n)) :
    Steps s (.insert pos u false) none ⟨s.highlighter, edited⟩
  | remove {pos length : Nat} {edited doc : Buffer} {n : Notification} {kind : PassKind}
    {h : Highlighter} (he : s.doc.remove pos length = .ok (edited, n))
    (ha : s.highlighter.Answers edited (some n) kind h doc) :
    Steps s (.remove pos length true) (some kind) ⟨h, doc⟩
  | removeQuietly {pos length : Nat} {edited : Buffer} {n : Notification}
    (he : s.doc.remove pos length = .ok (edited, n)) :
    Steps s (.remove pos length false) none ⟨s.highlighter, edited⟩
  | notify {n : Notification} {kind : PassKind} {h : Highlighter} {doc : Buffer}
    (ha : s.highlighter.Answers s.doc (some n) kind h doc) : Steps s (.notify n) (some kind) ⟨h, doc⟩
  | setLanguage (language : Language) :
    Steps s (.setLanguage language) none ⟨s.highlighter.setLanguage language, s.doc⟩
  | paint (start length : Nat) (style : Style) :
    Steps s (.paint start length style) none ⟨s.highlighter, s.doc.paint start length style⟩

variable {s s' : Session} {request : Request} {reply : Reply} {kind : Option PassKind}

/-- A request that was served has made one of the steps.

**Proof sketch.** By cases on the request. -/
theorem steps_of_serve (hserve : s.serve request = .ok (reply, s')) :
    s.Steps request reply.kind s' := by
  cases request with
  | highlight =>
    obtain ⟨s₁, hh, hserve⟩ := bind_eq_ok.mp hserve
    obtain ⟨⟨h, doc⟩, hd, hh⟩ := bind_eq_ok.mp hh
    cases hh
    cases hserve
    exact .highlight (Highlighter.answers_of_highlightDocument hd none)
  | insert pos u announced =>
    cases announced with
    | true =>
      obtain ⟨served, hi, hserve⟩ := bind_eq_ok.mp hserve
      obtain ⟨⟨edited, n⟩, he, hi⟩ := bind_eq_ok.mp hi
      cases hserve
      exact .insert he (Highlighter.answers_of_highlightEdit hi)
    | false =>
      obtain ⟨⟨edited, n⟩, he, hserve⟩ := bind_eq_ok.mp hserve
      cases hserve
      exact .insertQuietly he
  | remove pos length announced =>
    cases announced with
    | true =>
      obtain ⟨served, hi, hserve⟩ := bind_eq_ok.mp hserve
      obtain ⟨⟨edited, n⟩, he, hi⟩ := bind_eq_ok.mp hi
      cases hserve
      exact .remove he (Highlighter.answers_of_highlightEdit hi)
    | false =>
      obtain ⟨⟨edited, n⟩, he, hserve⟩ := bind_eq_ok.mp hserve
      cases hserve
      exact .removeQuietly he
  | notify n =>
    obtain ⟨served, hn, hserve⟩ := bind_eq_ok.mp hserve
    cases hserve
    exact .notify (Highlighter.answers_of_highlightEdit hn)
  | setLanguage language =>
    cases hserve
    exact .setLanguage language
  | paint start length style =>
    cases hserve
    exact .paint start length style

/-- The text is valid and the highlighter is healthy. -/
structure Healthy (s : Session) : Prop where
  valid : s.doc.text.Valid
  highlighter : s.highlighter.Healthy

/-- A new session is healthy. -/
lemma new_healthy {text : Text} (hv : text.Valid) (language : Language) (config : Config) :
    (Session.new language config text).Healthy :=
  ⟨hv, rfl, Layout.historyOrdered_empty⟩

/-- A session stays healthy whatever it is asked, and its text is the one that the request makes.

**Proof sketch.** By cases on the step. Edits keep the text valid, and painting keeps the text. -/
theorem Steps.healthy (hstep : s.Steps request kind s') (hs : s.Healthy)
    (ha : request.Admissible s.doc.text) :
    s'.Healthy ∧ s'.doc.text = request.textAfter s.doc.text := by
  have hvalid := ha.valid_textAfter hs.valid
  suffices h : s'.highlighter.Healthy ∧ s'.doc.text = request.textAfter s.doc.text by
    exact ⟨⟨h.2 ▸ hvalid, h.1⟩, h.2⟩
  cases hstep with
  | highlight hanswer =>
    exact ⟨hanswer.healthy hs.highlighter hs.valid,
      (hanswer.paints.ordered hs.highlighter hs.valid).2⟩
  | insert he hanswer =>
    have hedit := ((Buffer.insert_ensures ha.2).elim he).1
    exact ⟨hanswer.healthy hs.highlighter (hedit ▸ hvalid),
      (hanswer.paints.ordered hs.highlighter (hedit ▸ hvalid)).2.trans hedit⟩
  | insertQuietly he => exact ⟨hs.highlighter, ((Buffer.insert_ensures ha.2).elim he).1⟩
  | remove he hanswer =>
    have hedit := ((Buffer.remove_ensures ha.1 ha.2).elim he).1
    exact ⟨hanswer.healthy hs.highlighter (hedit ▸ hvalid),
      (hanswer.paints.ordered hs.highlighter (hedit ▸ hvalid)).2.trans hedit⟩
  | removeQuietly he => exact ⟨hs.highlighter, ((Buffer.remove_ensures ha.1 ha.2).elim he).1⟩
  | notify hanswer =>
    exact ⟨hanswer.healthy hs.highlighter hs.valid,
      (hanswer.paints.ordered hs.highlighter hs.valid).2⟩
  | setLanguage language => exact ⟨Highlighter.healthy_setLanguage _ language, rfl⟩
  | paint start length style => exact ⟨hs.highlighter, rfl⟩

/-- An invariant of sessions that every step of a run keeps holds after the run, and the requests that
follow the run are admissible then.

**Proof sketch.** Induction on the requests. -/
theorem serveAll_induction {Q : Session → Prop} {requests after : List Request}
    (hstep : ∀ s, ∀ request ∈ requests, ∀ kind s', s.Healthy → request.Admissible s.doc.text →
      s.Steps request kind s' → Q s → Q s') (hs : s.Healthy)
    (ha : Request.AllAdmissible s.doc.text (requests ++ after))
    (hrun : s.serveAll requests = .ok s') (hQ : Q s) :
    s'.Healthy ∧ Request.AllAdmissible s'.doc.text after ∧ Q s' := by
  induction requests generalizing s with
  | nil =>
    cases hrun
    exact ⟨hs, ha, hQ⟩
  | cons request rest ih =>
    obtain ⟨⟨reply, s₁⟩, hserve, hrun⟩ := bind_eq_ok.mp hrun
    have hsteps := steps_of_serve hserve
    obtain ⟨hs₁, htext⟩ := hsteps.healthy hs ha.1
    exact ih (fun s request' hmem => hstep s request' (List.mem_cons_of_mem _ hmem)) hs₁
      (htext ▸ ha.2) hrun (hstep s request (List.mem_cons_self ..) _ s₁ hs ha.1 hsteps hQ)

/-- An invariant of sessions that every step keeps holds after every run, and the requests that
follow the run are admissible then. -/
theorem serveAll_invariant {Q : Session → Prop} {after : List Request}
    (hstep : ∀ s request kind s', s.Healthy → request.Admissible s.doc.text →
      s.Steps request kind s' → Q s → Q s') {requests : List Request} (hs : s.Healthy)
    (ha : Request.AllAdmissible s.doc.text (requests ++ after))
    (hrun : s.serveAll requests = .ok s') (hQ : Q s) :
    s'.Healthy ∧ Request.AllAdmissible s'.doc.text after ∧ Q s' :=
  serveAll_induction (fun s request _ => hstep s request) hs ha hrun hQ

/-- A run leaves a healthy session. -/
lemma serveAll_healthy {requests after : List Request} (hs : s.Healthy)
    (ha : Request.AllAdmissible s.doc.text (requests ++ after))
    (hrun : s.serveAll requests = .ok s') :
    s'.Healthy ∧ Request.AllAdmissible s'.doc.text after := by
  have hinv := serveAll_invariant (Q := fun _ => True) (fun _ _ _ _ _ _ _ _ => trivial) hs ha hrun
    trivial
  exact ⟨hinv.1, hinv.2.1⟩

end Session

end LexPaint
