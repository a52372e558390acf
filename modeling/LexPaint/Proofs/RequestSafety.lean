import LexPaint.Proofs.PassSafety
import LexPaint.Session
import Mathlib.Algebra.Group.Nat.Defs

set_option relaxedAutoImplicit false
set_option autoImplicit false

/-!
# Requests succeed

A session is asked for anything in any order: edits, whether or not the highlighter is told about
them, changes of the language, full passes, and notifications that need not be true. As long as
edits keep to boundaries and the counters of the metrics have room, every request is served.

## Main definitions

* `Request.Admissible`, `Request.textAfter`: which edits a text admits, and what they make of it.
* `Request.AllAdmissible`, `Request.AllBelow`: several requests in turn, and a bound on the texts that
  they make.
* `Session.Sound`: what holds of a session at all times.

## Main results

* `Painter.full_ensures`, `Painter.edit_ensures`: full and local passes succeed.
* `Session.serve_ensures`: one request.
* `Session.serveAll_new_succeeds`: every run of admissible requests is served.
-/

namespace LexPaint

/-! ### Profiles -/

/-- The dialect and the program of a profile are sound. -/
def Profile.Sound (profile : Profile) : Prop :=
  profile.dialect.isPlain = true ∧ Primitive.soundAll true profile.program = true

/-- The profiles of all languages are sound. -/
lemma Language.profile?_sound {language : Language} {profile : Profile}
    (h : language.profile? = some profile) : profile.Sound := by
  have hall : ∀ l : Language, l.profile?.all (fun p =>
      p.dialect.isPlain && Primitive.soundAll true p.program) = true := by
    intro l
    cases l <;> decide +kernel
  have := hall language
  rw [h, Option.all_some, Bool.and_eq_true] at this
  exact this

/-- The profiles that a configuration enables are sound. -/
lemma Config.profile?_sound {config : Config} {language : Language} {profile : Profile}
    (h : config.profile? language = some profile) : profile.Sound := by
  unfold Config.profile? at h
  split at h
  · exact Language.profile?_sound h
  · cases h

/-! ### Passes over a document -/

/-- Lengths can be taken of the entries that the next pass compares by length. -/
def Layout.HistoryOrdered (l : Layout) : Prop :=
  (∀ iv ∈ l.composite.heredocs.retained, iv.start ≤ iv.stop) ∧
    ∀ iv ∈ l.composite.operators.retained, iv.start ≤ iv.stop

/-- Lengths can be taken of an empty history. -/
lemma Layout.historyOrdered_empty : Layout.empty.HistoryOrdered := by
  simp [HistoryOrdered, empty, CompositeSet.empty, IntervalSet.empty]

/-- Lengths can be taken of a history that was cleared. -/
lemma Layout.historyOrdered_clearHistory (l : Layout) : l.clearHistory.HistoryOrdered := by
  simp [HistoryOrdered, clearHistory, mapSets, CompositeSet.mapSets, IntervalSet.clearHistory]

/-- A layout that fits a scope has a history of which lengths can be taken. -/
lemma Layout.Fits.historyOrdered {f : Frame} {opened : Bool} {l : Layout} (h : l.Fits f opened) :
    l.HistoryOrdered :=
  ⟨h.heredocHistory, h.operatorHistory⟩

/-- What was mapped in a scope becomes a history of which lengths can be taken. -/
lemma Layout.Fits.historyOrdered_commit {f : Frame} {opened : Bool} {l : Layout}
    (h : l.Fits f opened) : l.commit.HistoryOrdered :=
  ⟨fun iv hiv => (h.heredocs.within iv hiv).2.1, fun iv hiv => (h.operators.within iv hiv).2.1⟩

/-- A layout whose current pass was dropped fits every scope.

**Proof sketch.** All sets are empty, and only the lengths of the history are left to take. -/
lemma Layout.HistoryOrdered.fits_reset {l : Layout} (h : l.HistoryOrdered) (f : Frame)
    (opened : Bool) : l.reset.Fits f opened where
  quotes := IntervalSet.fits_reset
  lineComments := IntervalSet.fits_reset
  blockComments := IntervalSet.fits_reset
  heredocs := IntervalSet.fits_reset
  operators := IntervalSet.fits_reset
  tags := IntervalSet.fits_reset
  attributeValues := IntervalSet.fits_reset
  embedded :=
    ⟨IntervalSet.fits_reset, by simp [reset, mapSets, IntervalSet.reset],
      by simp [reset, mapSets, IntervalSet.reset]⟩
  starts := by simp [reset]
  heredocHistory := h.1
  operatorHistory := h.2

/-- A pass over full lines of a valid document succeeds. -/
lemma Profile.runPass_ensures {profile : Profile} (hp : profile.Sound) {doc : Buffer}
    {start length : Nat} {detect : Bool}
    (hs : Scene.WellFormed ⟨doc.text, start, start + length, detect⟩) {layout : Layout}
    (hl : layout.HistoryOrdered) (nested : IntervalSet) :
    Ensures (profile.runPass doc start length detect layout nested)
      (Pass.Fits (.document doc.text profile.dialect) false) := by
  unfold runPass
  refine Primitive.runAll_ensures hs profile.program true _ _ hp.2
    (Frame.wellFormed_document hs.valid _) rfl hp.1 (fun _ => ?_) ⟨rfl, hl.fits_reset _ _⟩
  intro h
  exact absurd (Text.lt_size_of_byteAt h) (Nat.lt_irrefl _)

namespace Painter

variable {p : Painter} {profile : Profile} {doc : Buffer}

/-- A full pass over a valid document succeeds. -/
lemma full_ensures (hprofile : profile.Sound) (hdoc : doc.text.Valid)
    (hp : p.layout.HistoryOrdered) :
    Ensures (p.full profile doc) fun r => r.1.layout.HistoryOrdered ∧ r.2.text = doc.text := by
  have hscene : Scene.WellFormed ⟨doc.text, 0, 0 + doc.size, false⟩ := by
    rw [Nat.zero_add]
    exact Scene.wellFormed_whole hdoc false
  unfold full
  refine .bind (profile.runPass_ensures hprofile hscene hp p.nested) fun pass hpass => .pure ?_
  exact ⟨hpass.layout.historyOrdered_commit, hpass.text⟩

end Painter

/-! ### Layout comparisons -/

/-- Offsets behind the section can be moved. -/
lemma EditWindow.shift_ensures {w : EditWindow} {oldPos : Nat} (h : w.oldStop ≤ oldPos) :
    Ensures (w.shift oldPos) fun _ => True :=
  ⟨_, EditWindow.shift_of_le h, trivial⟩

/-- Parts of intervals can be moved, because what is moved lies behind the edited section.

**Proof sketch.** Induction on the intervals. -/
lemma outsidePieces_ensures {move : Nat → Checked Nat} {beforeEnd afterStart : Nat}
    (hmove : ∀ pos, afterStart ≤ pos → Ensures (move pos) fun _ => True) (ivs : List Interval) :
    Ensures (outsidePieces beforeEnd afterStart move ivs) fun _ => True := by
  induction ivs with
  | nil => exact .pure trivial
  | cons iv rest ih =>
    unfold outsidePieces
    refine .bind (P := fun _ => True) ?_ fun after _ => .bind ih fun others _ => .pure trivial
    unfold pieceAfter
    refine .ite (fun hlt => ?_) fun _ => .pure trivial
    refine .bind (hmove _ (Nat.le_max_right _ _)) fun start _ => ?_
    exact .bind (hmove _ (Nat.le_of_lt hlt)) fun stop _ => .pure trivial

/-- A set can be compared with its history. -/
lemma IntervalSet.layoutChange_ensures (set : IntervalSet) (w : EditWindow) :
    Ensures (set.layoutChange w) fun _ => True := by
  unfold layoutChange
  refine .bind (outsidePieces_ensures (fun _ _ => .pure trivial) _) fun current _ => ?_
  exact .bind (outsidePieces_ensures (fun _ h => EditWindow.shift_ensures h) _)
    fun previous _ => .pure trivial

/-- All sets can be compared with their history. -/
lemma Layout.layoutChange_ensures (l : Layout) (w : EditWindow) :
    Ensures (l.layoutChange w) fun _ => True := by
  unfold layoutChange
  generalize l.sets = sets
  induction sets with
  | nil => exact .pure trivial
  | cons entry rest ih =>
    unfold firstChange
    refine .bind (entry.2.layoutChange_ensures w) fun changed _ => ?_
    exact .ite (fun _ => .pure trivial) fun _ => ih

namespace Painter

variable {p : Painter} {profile : Profile} {doc : Buffer}

/-- What a local pass has mapped can be compared with the history. -/
lemma escalation_ensures (pass : Pass) (w : EditWindow) :
    Ensures (escalation pass w) fun _ => True := by
  unfold escalation
  split
  · exact .pure trivial
  · refine .bind (pass.layout.layoutChange_ensures w) fun reason _ => ?_
    split
    · exact .pure trivial
    · exact .bind (pass.nested.layoutChange_ensures w) fun changed _ => .pure trivial

end Painter

/-! ### Sections -/

/-- A section of full lines of a document. -/
structure Section.Lies (s : Section) (t : Text) : Prop where
  startsLine : t.StartsLine s.start
  endsLine : t.EndsLine s.stop
  text_eq : s.text = t.between s.start s.stop

/-- The full lines around a range can be cut out of a valid document.

**Proof sketch.** Line bounds are boundaries of the text and come in order. -/
lemma Section.lines_ensures {t : Text} (ht : t.Valid) (first last : Nat) :
    Ensures (Section.lines t first last) fun s =>
      s.Lies t ∧ s.start = t.lineStart (min first t.size) ∧
        s.stop = t.lineEnd (min (max last first) t.size) := by
  have hstart := Text.startsLine_lineStart t (min first t.size)
  have hstop := Text.endsLine_lineEnd t (min (max last first) t.size)
  have h1 := Text.lineStart_le t (min first t.size)
  have h2 : min (max last first) t.size ≤ t.lineEnd (min (max last first) t.size) :=
    Text.le_lineEnd (Nat.min_le_right _ _)
  have hle : t.lineStart (min first t.size) ≤ t.lineEnd (min (max last first) t.size) := by omega
  unfold lines
  dsimp only
  refine .bind (Text.slice_ensures hle (hstart.isBoundary ht) hstop.isBoundary) fun part hpart =>
    .pure ?_
  have hsize : part.size =
      t.lineEnd (min (max last first) t.size) - t.lineStart (min first t.size) := by
    rw [hpart, Text.size_between _ _ (Text.le_size_of_isBoundary hstop.isBoundary)]
  have hs : (⟨part, t.lineStart (min first t.size)⟩ : Section).stop =
      t.lineEnd (min (max last first) t.size) := by
    show t.lineStart (min first t.size) + part.size = _
    omega
  refine ⟨⟨hstart, ?_, ?_⟩, rfl, hs⟩
  · rw [hs]
    exact hstop
  · rw [hs]
    exact hpart

/-- A section of full lines as what a pass paints. -/
lemma Section.Lies.scene {s : Section} {t : Text} (h : s.Lies t) (ht : t.Valid) (detect : Bool) :
    Scene.WellFormed ⟨t, s.start, s.start + s.length, detect⟩ :=
  ⟨ht, Nat.le_add_right _ _, .inl h.startsLine, .inr h.endsLine⟩

namespace Painter

variable {p : Painter} {profile : Profile} {doc : Buffer}

/-- An edited document can be painted. -/
lemma edit_ensures (hprofile : profile.Sound) (hdoc : doc.text.Valid)
    (hp : p.layout.HistoryOrdered) {s : Section} (hs : s.Lies doc.text) (w : EditWindow) :
    Ensures (p.edit profile doc s w) fun r =>
      r.2.1.layout.HistoryOrdered ∧ r.2.2.text = doc.text := by
  unfold edit
  refine .ite (fun _ => ?_) fun _ => ?_
  · refine .bind (full_ensures hprofile hdoc hp) fun r hr => ?_
    exact .pure hr
  · refine .bind (profile.runPass_ensures hprofile (hs.scene hdoc true) hp p.nested)
      fun pass hpass => ?_
    refine .bind (escalation_ensures pass w) fun reason _ => ?_
    have htext : pass.canvas.text = doc.text := hpass.text
    split
    · exact .pure ⟨hpass.layout.historyOrdered_commit, htext⟩
    · refine .bind (full_ensures hprofile (htext ▸ hdoc) hpass.layout.historyOrdered)
        fun r hr => ?_
      exact .pure ⟨hr.1, hr.2.trans htext⟩

end Painter

/-! ### Metrics -/

/-- The counters after some requests: at most one pass for each of them, over a document of bounded
length, and no time. -/
structure Metrics.Within (bound requests : Nat) (m : Metrics) : Prop where
  totalTime : m.totalTime = 0
  passes : m.passes ≤ requests
  bytes : m.bytesRescanned ≤ requests * bound

/-- Nothing has been counted yet. -/
lemma Metrics.within_zero (bound : Nat) : Metrics.zero.Within bound 0 :=
  ⟨rfl, Nat.le_refl _, Nat.zero_le _⟩

/-- The counters may count less than there were requests. -/
lemma Metrics.Within.succ {bound requests : Nat} {m : Metrics} (h : m.Within bound requests) :
    m.Within bound (requests + 1) :=
  ⟨h.totalTime, Nat.le_succ_of_le h.passes, Nat.le_trans h.bytes
    (Nat.mul_le_mul_right _ (Nat.le_succ _))⟩

/-- One more pass is counted, as long as there are fewer than `2 ^ 32` requests and documents are
shorter than `2 ^ 31`.

**Proof sketch.** One more pass counts one pass, and no more bytes than the document has. So all sums
stay below what the counters hold. -/
lemma Metrics.record_ensures {bound requests length : Nat} {m : Metrics}
    (h : m.Within bound requests) (hr : requests + 1 < 2 ^ 32) (hb : bound ≤ 2 ^ 31)
    (hl : length ≤ bound) (kind : PassKind) :
    Ensures (m.record kind 0 length) (Metrics.Within bound (requests + 1)) := by
  have hpasses : (m.withPass kind 0 length).passes = m.passes + 1 := by
    unfold withPass refreshAverage countPass
    cases kind <;> dsimp only <;> split <;> simp only [passes] <;> omega
  have hbytes : (m.withPass kind 0 length).bytesRescanned ≤ m.bytesRescanned + length := by
    unfold withPass refreshAverage countPass
    cases kind <;> dsimp only <;> split <;> dsimp only <;> omega
  have htime : (m.withPass kind 0 length).totalTime = 0 := by
    have := h.totalTime
    unfold withPass refreshAverage countPass
    cases kind <;> dsimp only <;> split <;> dsimp only <;> omega
  have h1 := h.passes
  have h2 := h.bytes
  have h3 : (requests + 1) * bound = requests * bound + bound := by rw [Nat.add_mul, Nat.one_mul]
  have h4 : (requests + 1) * bound ≤ 2 ^ 32 * 2 ^ 31 :=
    Nat.mul_le_mul (Nat.le_of_lt hr) hb
  refine ⟨m.withPass kind 0 length, accept_eq_ok_iff.mpr ⟨rfl, ?_, ?_⟩, htime, by omega, by omega⟩
  · simp only [fits, Bool.and_eq_true, decide_eq_true_eq]
    unfold Capacity.ofCount Capacity.ofTime
    omega
  · exact hasDivisor_of_lt (by omega)

/-! ### Requests -/

namespace Request

/-- The text after a request. -/
def textAfter (t : Text) : Request → Text
  | .insert pos u _ => Buffer.insertText t pos u
  | .remove pos length _ => Buffer.removeText t pos (pos + length)
  | _ => t

/-- Whether a text admits a request: an edit has to keep to boundaries, and an inserted text has to
be valid. -/
def Admissible (t : Text) : Request → Prop
  | .insert pos u _ => u.Valid ∧ t.isBoundary pos = true
  | .remove pos length _ => t.isBoundary pos = true ∧ t.isBoundary (pos + length) = true
  | _ => True

/-- Whether a text admits several requests in turn. -/
def AllAdmissible : Text → List Request → Prop
  | _, [] => True
  | t, request :: rest => request.Admissible t ∧ AllAdmissible (request.textAfter t) rest

/-- Whether all texts that several requests make in turn are shorter than a bound. -/
def AllBelow (bound : Nat) : Text → List Request → Prop
  | _, [] => True
  | t, request :: rest =>
    (request.textAfter t).size < bound ∧ AllBelow bound (request.textAfter t) rest

/-- A text stays valid under admissible requests. -/
lemma Admissible.valid_textAfter {t : Text} {request : Request} (h : request.Admissible t)
    (ht : t.Valid) : (request.textAfter t).Valid := by
  cases request with
  | insert pos u announced => exact Buffer.valid_insertText ht h.1 h.2
  | remove pos length announced => exact Buffer.valid_removeText ht h.1 h.2
  | highlight => exact ht
  | notify n => exact ht
  | setLanguage language => exact ht
  | paint start length style => exact ht

end Request

namespace Buffer

/-- A text can be inserted at a boundary. -/
lemma insert_ensures {b : Buffer} {pos : Nat} {u : Text} (h : b.text.isBoundary pos = true) :
    Ensures (b.insert pos u) fun r => r.1.text = insertText b.text pos u ∧ r.2 = .inserted pos u := by
  unfold insert
  rw [dif_pos h]
  exact .ok ⟨rfl, rfl⟩

/-- What lies between two boundaries can be removed. -/
lemma remove_ensures {b : Buffer} {pos length : Nat} (h1 : b.text.isBoundary pos = true)
    (h2 : b.text.isBoundary (pos + length) = true) :
    Ensures (b.remove pos length) fun r =>
      r.1.text = removeText b.text pos (pos + length) ∧ r.2 = .removed pos length := by
  unfold remove
  rw [dif_pos ⟨h1, h2⟩]
  exact .ok ⟨rfl, rfl⟩

end Buffer

/-! ### Highlighters -/

/-- What holds of a highlighter at all times: its profile is that of its language, the history can be
compared with, and the counters have counted no more than the requests so far. -/
structure Highlighter.Sound (bound requests : Nat) (h : Highlighter) : Prop where
  profile_eq : h.profile = h.config.profile? h.language
  history : h.painter.layout.HistoryOrdered
  metrics : h.metrics.Within bound requests

namespace Highlighter

variable {h : Highlighter} {doc : Buffer} {bound requests : Nat}

/-- A valid document can be highlighted. -/
lemma highlightDocument_ensures (hh : h.Sound bound requests) (hr : requests + 1 < 2 ^ 32)
    (hb : bound ≤ 2 ^ 31) (hdoc : doc.text.Valid) (hl : doc.size ≤ bound) :
    Ensures (h.highlightDocument doc) fun r =>
      r.1.Sound bound (requests + 1) ∧ r.2.text = doc.text := by
  unfold highlightDocument
  dsimp only
  split
  · rename_i profile hprofile
    have hsound := Config.profile?_sound (hh.profile_eq ▸ hprofile)
    refine .bind (Painter.full_ensures hsound hdoc hh.history) fun r hr' => ?_
    unfold finish
    refine .bind (.bind (Metrics.record_ensures hh.metrics hr hb hl .full) fun m hm =>
      .pure (Q := fun h' : Highlighter => h'.Sound bound (requests + 1)) ?_) fun h' hh' =>
        .pure ⟨hh', hr'.2⟩
    exact ⟨hh.profile_eq, hr'.1, hm⟩
  · unfold finish
    refine .bind (.bind (Metrics.record_ensures hh.metrics hr hb hl .full) fun m hm =>
      .pure (Q := fun h' : Highlighter => h'.Sound bound (requests + 1)) ?_) fun h' hh' =>
        .pure ⟨hh', rfl⟩
    exact ⟨hh.profile_eq, hh.history, hm⟩

/-- Where an edit cannot be served as such, the document can be highlighted. -/
lemma fallBack_ensures (hh : h.Sound bound requests) (hr : requests + 1 < 2 ^ 32)
    (hb : bound ≤ 2 ^ 31) (hdoc : doc.text.Valid) (hl : doc.size ≤ bound)
    (fallback : Option Fallback) :
    Ensures (h.fallBack doc fallback) fun served =>
      served.highlighter.Sound bound (requests + 1) ∧ served.doc.text = doc.text := by
  unfold fallBack
  exact .bind (highlightDocument_ensures hh hr hb hdoc hl) fun r hr' => .pure hr'

/-- Whatever a notification says, it is served.

**Proof sketch.** By cases on what the notification says. A range it describes is turned into full
lines, as far as it lies in the document, and otherwise the document is highlighted as a whole. -/
lemma highlightEdit_ensures (hh : h.Sound bound requests) (hr : requests + 1 < 2 ^ 32)
    (hb : bound ≤ 2 ^ 31) (hdoc : doc.text.Valid) (hl : doc.size ≤ bound) (n : Notification) :
    Ensures (h.highlightEdit doc n) fun served =>
      served.highlighter.Sound bound (requests + 1) ∧ served.doc.text = doc.text := by
  unfold highlightEdit
  split
  · rename_i profile oldLength hprofile _ _
    have hsound := Config.profile?_sound (hh.profile_eq ▸ hprofile)
    unfold serveEdit
    split
    · exact fallBack_ensures hh hr hb hdoc hl _
    · rename_i first last _
      refine .bind (Section.lines_ensures hdoc first last) fun s hs => ?_
      split
      · exact fallBack_ensures hh hr hb hdoc hl _
      · rename_i w _
        refine .bind (Painter.edit_ensures hsound hdoc hh.history hs.1 w) fun r hr' => ?_
        dsimp only
        unfold finish
        refine .bind (.bind (Metrics.record_ensures hh.metrics hr hb hl r.1) fun m hm =>
          .pure (Q := fun h' : Highlighter => h'.Sound bound (requests + 1)) ?_) fun h' hh' =>
            .pure ⟨hh', hr'.2⟩
        exact ⟨hh.profile_eq, hr'.1, hm⟩
  · exact fallBack_ensures hh hr hb hdoc hl _

/-- A change of the language keeps a highlighter sound. -/
lemma setLanguage_sound (hh : h.Sound bound requests) (language : Language) :
    (h.setLanguage language).Sound bound requests :=
  ⟨rfl, h.painter.layout.historyOrdered_clearHistory, hh.metrics⟩

/-- A sound highlighter may be asked for nothing. -/
lemma Sound.succ (hh : h.Sound bound requests) : h.Sound bound (requests + 1) :=
  ⟨hh.profile_eq, hh.history, hh.metrics.succ⟩

end Highlighter

/-! ### Sessions -/

/-- What holds of a session at all times. -/
structure Session.Sound (bound requests : Nat) (s : Session) : Prop where
  valid : s.doc.text.Valid
  size_lt : s.doc.text.size < bound
  highlighter : s.highlighter.Sound bound requests

namespace Session

variable {s : Session} {bound requests : Nat}

/-- A new session is sound. -/
lemma new_sound {text : Text} (hv : text.Valid) (hs : text.size < bound) (language : Language)
    (config : Config) : (Session.new language config text).Sound bound 0 :=
  ⟨hv, hs, rfl, Layout.historyOrdered_empty, Metrics.within_zero bound⟩

/-- An insertion can be served. -/
lemma insert_ensures (h : s.Sound bound requests) (hr : requests + 1 < 2 ^ 32)
    (hb : bound ≤ 2 ^ 31) {pos : Nat} {u : Text} (ha : u.Valid ∧ s.doc.text.isBoundary pos = true)
    (hsize : (Buffer.insertText s.doc.text pos u).size < bound) :
    Ensures (s.insert pos u) fun served => served.highlighter.Sound bound (requests + 1) ∧
      served.doc.text = Buffer.insertText s.doc.text pos u := by
  have hvalid := Buffer.valid_insertText h.valid ha.1 ha.2
  unfold insert
  refine .bind (Buffer.insert_ensures ha.2) fun r hr' => ?_
  have hl : r.1.size ≤ bound := by
    rw [Buffer.size, hr'.1]
    exact Nat.le_of_lt hsize
  exact (Highlighter.highlightEdit_ensures h.highlighter hr hb (hr'.1 ▸ hvalid) hl r.2).mono
    fun served hserved => ⟨hserved.1, hserved.2.trans hr'.1⟩

/-- A removal can be served. -/
lemma remove_ensures (h : s.Sound bound requests) (hr : requests + 1 < 2 ^ 32)
    (hb : bound ≤ 2 ^ 31) {pos length : Nat}
    (ha : s.doc.text.isBoundary pos = true ∧ s.doc.text.isBoundary (pos + length) = true)
    (hsize : (Buffer.removeText s.doc.text pos (pos + length)).size < bound) :
    Ensures (s.remove pos length) fun served => served.highlighter.Sound bound (requests + 1) ∧
      served.doc.text = Buffer.removeText s.doc.text pos (pos + length) := by
  have hvalid := Buffer.valid_removeText h.valid ha.1 ha.2
  unfold remove
  refine .bind (Buffer.remove_ensures ha.1 ha.2) fun r hr' => ?_
  have hl : r.1.size ≤ bound := by
    rw [Buffer.size, hr'.1]
    exact Nat.le_of_lt hsize
  exact (Highlighter.highlightEdit_ensures h.highlighter hr hb (hr'.1 ▸ hvalid) hl r.2).mono
    fun served hserved => ⟨hserved.1, hserved.2.trans hr'.1⟩

/-- An admissible request is served, and leaves a sound session with the text that it makes.

**Proof sketch.** By cases on the request, and for edits on whether the highlighter is told about
them. -/
theorem serve_ensures (h : s.Sound bound requests) (hr : requests + 1 < 2 ^ 32)
    (hb : bound ≤ 2 ^ 31) {request : Request} (ha : request.Admissible s.doc.text)
    (hsize : (request.textAfter s.doc.text).size < bound) :
    Ensures (s.serve request) fun r =>
      r.2.Sound bound (requests + 1) ∧ r.2.doc.text = request.textAfter s.doc.text := by
  have hvalid := ha.valid_textAfter h.valid
  have hl : s.doc.size ≤ bound := Nat.le_of_lt h.size_lt
  cases request with
  | highlight =>
    refine .bind (.bind (Highlighter.highlightDocument_ensures h.highlighter hr hb h.valid hl)
      fun r hr' => .pure (Q := fun s' : Session => s'.Sound bound (requests + 1) ∧
        s'.doc.text = s.doc.text) ?_) fun s' hs' => .pure hs'
    exact ⟨⟨hr'.2 ▸ h.valid, hr'.2 ▸ h.size_lt, hr'.1⟩, hr'.2⟩
  | insert pos u announced =>
    cases announced with
    | true =>
      refine .bind (insert_ensures h hr hb ha hsize) fun served hserved => .pure ?_
      exact ⟨⟨hserved.2 ▸ hvalid, hserved.2 ▸ hsize, hserved.1⟩, hserved.2⟩
    | false =>
      refine .bind (Buffer.insert_ensures ha.2) fun r hr' => .pure ?_
      exact ⟨⟨hr'.1 ▸ hvalid, hr'.1 ▸ hsize, h.highlighter.succ⟩, hr'.1⟩
  | remove pos length announced =>
    cases announced with
    | true =>
      refine .bind (remove_ensures h hr hb ha hsize) fun served hserved => .pure ?_
      exact ⟨⟨hserved.2 ▸ hvalid, hserved.2 ▸ hsize, hserved.1⟩, hserved.2⟩
    | false =>
      refine .bind (Buffer.remove_ensures ha.1 ha.2) fun r hr' => .pure ?_
      exact ⟨⟨hr'.1 ▸ hvalid, hr'.1 ▸ hsize, h.highlighter.succ⟩, hr'.1⟩
  | notify n =>
    refine .bind (Highlighter.highlightEdit_ensures h.highlighter hr hb h.valid hl n)
      fun served hserved => .pure ?_
    exact ⟨⟨hserved.2 ▸ h.valid, hserved.2 ▸ h.size_lt, hserved.1⟩, hserved.2⟩
  -- what is left does not paint by a pass
  | setLanguage language =>
    exact .ok ⟨⟨h.valid, h.size_lt, (Highlighter.setLanguage_sound h.highlighter language).succ⟩,
      rfl⟩
  | paint start length style => exact .ok ⟨⟨h.valid, h.size_lt, h.highlighter.succ⟩, rfl⟩

/-- Requests that come in turn are served in turn.

**Proof sketch.** Induction on the requests: each one is served and leaves a sound session. -/
theorem serveAll_ensures (h : s.Sound bound requests) (hb : bound ≤ 2 ^ 31) :
    ∀ rs : List Request, requests + rs.length < 2 ^ 32 →
      Request.AllAdmissible s.doc.text rs → Request.AllBelow bound s.doc.text rs →
      Ensures (s.serveAll rs) fun s' => s'.Sound bound (requests + rs.length) := by
  intro rs
  induction rs generalizing s requests with
  | nil =>
    intro _ _ _
    exact .ok h
  | cons request rest ih =>
    intro hlen ha hbelow
    obtain ⟨hadm, hrest⟩ := ha
    obtain ⟨hsize, hsizes⟩ := hbelow
    rw [List.length_cons] at hlen
    refine .bind (serve_ensures h (by omega) hb hadm hsize) fun r hr => ?_
    rw [List.length_cons, show requests + (rest.length + 1) = requests + 1 + rest.length by omega]
    exact ih hr.1 (by omega) (hr.2 ▸ hrest) (hr.2 ▸ hsizes)

/-- **Highlighting never fails.** A run of fewer than `2 ^ 32` requests over texts shorter than
`2 ^ 31` is served to its end, in every language and under every configuration. The requests may
come in any order, the edits only have to keep to boundaries, and notifications may be right or
wrong.

**Proof sketch.** A session that has not seen a request is sound, and sound sessions serve requests
in turn. -/
theorem serveAll_new_succeeds (language : Language) (config : Config) {text : Text}
    (hv : text.Valid) (hs : text.size < 2 ^ 31) {requests : List Request}
    (hn : requests.length < 2 ^ 32) (ha : Request.AllAdmissible text requests)
    (hb : Request.AllBelow (2 ^ 31) text requests) :
    ∃ s, (Session.new language config text).serveAll requests = .ok s := by
  have hsound := new_sound hv hs language config
  obtain ⟨s, hrun, -⟩ := serveAll_ensures hsound (Nat.le_refl _) requests
    (by rwa [Nat.zero_add]) ha hb
  exact ⟨s, hrun⟩

/-- An edit inside a character of two bytes, a notification that is not true, and a change of the
language. -/
theorem serveAll_new_succeeds_php :
    ∃ s, (Session.new .php .standard (Text.ofString "<?=$a?>")).serveAll
      [.highlight, .insert 4 (Text.ofString "é") true, .notify (.removed 90 7),
        .remove 4 2 false, .setLanguage .perl, .notify (.changed 3 true)] = .ok s :=
  serveAll_new_succeeds .php .standard (Text.valid_ofString _) (by decide) (by decide)
    ⟨trivial, ⟨Text.valid_ofString _, by decide⟩, trivial, ⟨by decide, by decide⟩, trivial, trivial,
      trivial⟩
    ⟨by decide, by decide, by decide, by decide, by decide, by decide, trivial⟩

end Session

end LexPaint
