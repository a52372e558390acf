import LexPaint.Proofs.WholeCharacters

set_option relaxedAutoImplicit false
set_option autoImplicit false

/-!
# Rendering

The runs of a buffer follow each other without gaps. Where the style changes, a character ends, as long
as all bytes of a character have one style, so every run can be cut out of the text. Rendering writes
the runs one after another, with a color sequence on either side of a run that is not plain. Whoever
deletes these sequences has the text again, unless the text had escape bytes of its own.

## Main definitions

* `Text.join`: several texts one after another.
* `Mark.withoutSequences`: bytes without their color sequences.
* `Buffer.RunsFollow`: runs that follow each other to the end of a text.

## Main results

* `Buffer.Whole.runs_follow`: the runs of a buffer whose characters are whole.
* `Mark.withoutSequences_join`: what is left of rendered runs.
* `Session.serveAll_rendering`: rendering after any requests.
-/

namespace LexPaint

/-! ### Texts in parts -/

namespace Text

variable {t u v : Text} {lo mid hi : Nat}

/-- Several texts one after another. -/
def join : List Text → Text
  | [] => ⟨ByteArray.empty⟩
  | t :: rest => t ++ join rest

/-- The bytes of a text. -/
def toMark (t : Text) : Mark :=
  t.bytes.data.toList

/-- The bytes of two texts in a row. -/
@[simp]
lemma toMark_append (t u : Text) : (t ++ u).toMark = t.toMark ++ u.toMark :=
  ByteArray.toList_data_append

/-- Texts can be put together in any grouping. -/
lemma append_assoc (t u v : Text) : t ++ u ++ v = t ++ (u ++ v) :=
  Text.ext ByteArray.append_assoc

/-- An empty text in front changes nothing. -/
lemma empty_append (t : Text) : (⟨ByteArray.empty⟩ : Text) ++ t = t :=
  Text.ext ByteArray.empty_append

/-- An empty text behind changes nothing. -/
lemma append_empty (t : Text) : t ++ (⟨ByteArray.empty⟩ : Text) = t :=
  Text.ext ByteArray.append_empty

/-- Two parts of a text that meet are one part. -/
lemma between_append (h : lo ≤ mid) (h' : mid ≤ hi) :
    t.between lo mid ++ t.between mid hi = t.between lo hi :=
  Text.ext (ByteArray.extract_eq_extract_append_extract mid h h').symm

/-- The bytes of a text are those at its offsets. -/
lemma mem_toMark {b : UInt8} : b ∈ t.toMark ↔ ∃ i, t.byteAt i = some b := by
  rw [toMark, List.mem_iff_getElem?]
  refine exists_congr fun i => ?_
  rw [Array.getElem?_toList]
  rfl

end Text

/-! ### Color sequences -/

namespace Mark

/-- The byte that begins a color sequence. -/
def escape : UInt8 := 0x1B

/-- The byte that ends a color sequence. -/
def sequenceEnd : UInt8 := 0x6D

/-- What follows the color sequence whose parameters begin here, if parameters and the end of a
sequence stand here. -/
def behindParameters (isParameter : UInt8 → Bool) : Mark → Option Mark
  | [] => none
  | b :: rest =>
    if b = sequenceEnd then some rest
    else if isParameter b then behindParameters isParameter rest
    else none

/-- What follows the color sequence that stands here, if one does: an escape byte, an open bracket,
parameters and the end. -/
def behindSequence (isParameter : UInt8 → Bool) (m : Mark) : Option Mark :=
  if m.take 2 = [escape, 0x5B] then behindParameters isParameter (m.drop 2) else none

/-- What follows the parameters is shorter. -/
lemma length_behindParameters {isParameter : UInt8 → Bool} {m rest : Mark}
    (h : behindParameters isParameter m = some rest) : rest.length < m.length := by
  induction m with
  | nil => cases h
  | cons b m ih =>
    unfold behindParameters at h
    split at h
    · cases h
      exact Nat.lt_succ_self _
    · split at h
      · exact Nat.lt_succ_of_lt (ih h)
      · cases h

/-- What follows a color sequence is shorter. -/
lemma length_behindSequence {isParameter : UInt8 → Bool} {m rest : Mark}
    (h : behindSequence isParameter m = some rest) : rest.length < m.length := by
  unfold behindSequence at h
  split at h
  · have := length_behindParameters h
    rw [List.length_drop] at this
    omega
  · cases h

/-- The bytes without their color sequences. What counts as a parameter is left open; the bytes of a
sequence that does not end stay. -/
def withoutSequences (isParameter : UInt8 → Bool) : Mark → Mark
  | [] => []
  | b :: rest =>
    match _h : behindSequence isParameter (b :: rest) with
    | some behind => withoutSequences isParameter behind
    | none => b :: withoutSequences isParameter rest
termination_by m => m.length
decreasing_by
  · exact length_behindSequence _h
  · exact Nat.lt_succ_self _

variable {isParameter : UInt8 → Bool}

/-- Bytes other than the escape byte stay.

**Proof sketch.** Induction on these bytes: none of them begins a sequence. -/
lemma withoutSequences_append {m : Mark} (hm : ∀ b ∈ m, b ≠ escape) (rest : Mark) :
    withoutSequences isParameter (m ++ rest) = m ++ withoutSequences isParameter rest := by
  induction m with
  | nil => rfl
  | cons b m ih =>
    have hnone : behindSequence isParameter (b :: (m ++ rest)) = none := by
      unfold behindSequence
      rw [if_neg]
      intro h
      cases hmr : m ++ rest with
      | nil => rw [hmr] at h; simp at h
      | cons b' rest' =>
        rw [hmr] at h
        simp only [List.take_succ_cons, List.take_zero, List.cons.injEq] at h
        exact hm b (List.mem_cons_self ..) h.1
    rw [List.cons_append, withoutSequences]
    split
    · rename_i hsome
      rw [hnone] at hsome
      cases hsome
    · rw [ih fun b' hb' => hm b' (List.mem_cons_of_mem _ hb'), List.cons_append]

/-- What follows the parameters is what follows the end of the sequence. -/
lemma behindParameters_append {params : Mark}
    (hparams : ∀ b ∈ params, b ≠ sequenceEnd ∧ isParameter b = true) (rest : Mark) :
    behindParameters isParameter (params ++ sequenceEnd :: rest) = some rest := by
  induction params with
  | nil =>
    rw [List.nil_append, behindParameters, if_pos rfl]
  | cons b params ih =>
    obtain ⟨hend, hparam⟩ := hparams b (List.mem_cons_self ..)
    rw [List.cons_append, behindParameters, if_neg hend, if_pos hparam]
    exact ih fun b' hb' => hparams b' (List.mem_cons_of_mem _ hb')

/-- A color sequence is deleted.

**Proof sketch.** The sequence is recognised at its escape byte, and what follows its end is what is
left. -/
lemma withoutSequences_sequence {params : Mark}
    (hparams : ∀ b ∈ params, b ≠ sequenceEnd ∧ isParameter b = true) (rest : Mark) :
    withoutSequences isParameter (escape :: 0x5B :: (params ++ sequenceEnd :: rest)) =
      withoutSequences isParameter rest := by
  have hsome : behindSequence isParameter (escape :: 0x5B :: (params ++ sequenceEnd :: rest)) =
      some rest := by
    unfold behindSequence
    rw [if_pos (by rfl)]
    exact behindParameters_append hparams rest
  rw [withoutSequences]
  split
  · rename_i behind hbehind
    rw [hsome] at hbehind
    cases hbehind
    rfl
  · rename_i hnone
    rw [hsome] at hnone
    cases hnone

/-- The codes of colors are digits. -/
lemma digits_ansiCode (color : Color) :
    (mark color.ansiCode).all (fun b => decide (0x30 ≤ b ∧ b ≤ 0x39)) = true := by
  cases color <;> decide

/-- A color sequence, byte by byte. -/
lemma mark_sequence (code : String) :
    mark ("\x1b[" ++ code ++ "m") = escape :: 0x5B :: (mark code ++ [sequenceEnd]) := by
  simp only [mark, String.toByteArray_append, ByteArray.toList_data_append]
  rfl

/-- What is left of a rendered run is its text.

**Proof sketch.** A plain run is its text. Around any other run stand two color sequences, whose
codes are digits. The text has no escape byte, so no sequence begins in it. -/
lemma withoutSequences_renderRun
    (hdigits : ∀ b : UInt8, 0x30 ≤ b → b ≤ 0x39 → isParameter b = true) (theme : Theme) (style : Style)
    {text : Text} (htext : ∀ i, text.byteAt i ≠ some escape) (rest : Mark) :
    withoutSequences isParameter ((Buffer.renderRun theme style text).toMark ++ rest) =
      text.toMark ++ withoutSequences isParameter rest := by
  have hbytes : ∀ b ∈ text.toMark, b ≠ escape := by
    rintro b hb rfl
    obtain ⟨i, hi⟩ := Text.mem_toMark.mp hb
    exact htext i hi
  have hparams : ∀ code : String, (mark code).all (fun b => decide (0x30 ≤ b ∧ b ≤ 0x39)) = true →
      ∀ b ∈ mark code, b ≠ sequenceEnd ∧ isParameter b = true := by
    intro code hcode b hb
    obtain ⟨h1, h2⟩ := of_decide_eq_true (List.all_eq_true.mp hcode b hb)
    exact ⟨fun heq => absurd (heq ▸ h2) (by decide), hdigits b h1 h2⟩
  have hsequence : ∀ (code : String) (rest : Mark),
      (mark code).all (fun b => decide (0x30 ≤ b ∧ b ≤ 0x39)) = true →
      withoutSequences isParameter (mark ("\x1b[" ++ code ++ "m") ++ rest) =
        withoutSequences isParameter rest := by
    intro code rest hcode
    rw [mark_sequence, List.cons_append, List.cons_append, List.append_assoc]
    exact withoutSequences_sequence (hparams code hcode) rest
  unfold Buffer.renderRun
  split
  · exact withoutSequences_append hbytes rest
  · rw [Text.toMark_append, Text.toMark_append, List.append_assoc, List.append_assoc]
    refine (hsequence _ _ (digits_ansiCode _)).trans ?_
    rw [withoutSequences_append hbytes]
    exact congrArg _ (hsequence "0" rest (by decide))

/-- What is left of rendered runs is their texts, one after another.

**Proof sketch.** Induction on the runs. -/
theorem withoutSequences_join (hdigits : ∀ b : UInt8, 0x30 ≤ b → b ≤ 0x39 → isParameter b = true)
    (theme : Theme) {t : Text} (ht : ∀ i, t.byteAt i ≠ some escape) (runs : List StyleRun) :
    withoutSequences isParameter (Text.join (runs.map fun run =>
        Buffer.renderRun theme run.style (t.between run.start run.stop))).toMark =
      (Text.join (runs.map fun run => t.between run.start run.stop)).toMark := by
  induction runs with
  | nil =>
    show withoutSequences isParameter [] = []
    rw [withoutSequences]
  | cons run rest ih =>
    rw [List.map_cons, List.map_cons, Text.join, Text.join, Text.toMark_append, Text.toMark_append,
      withoutSequences_renderRun hdigits theme run.style ?_, ih]
    intro i hi
    rw [Text.byteAt_between] at hi
    split at hi
    · exact ht _ hi
    · cases hi

end Mark

/-! ### Runs -/

namespace Buffer

variable {t : Text} {b : Buffer}

/-- The runs follow each other from an offset to the end of the text, and each of them ends between
characters. -/
def RunsFollow (t : Text) : Nat → List StyleRun → Prop
  | lo, [] => lo = t.size
  | lo, run :: rest =>
    run.start = lo ∧ lo ≤ run.stop ∧ t.isBoundary run.stop = true ∧ RunsFollow t run.stop rest

/-- The runs behind one that has reached an offset follow it.

**Proof sketch.** Induction on the styles from the offset on. The run ends where the next style is
another one. The byte there does not continue a character, because then it would have the style of the
byte before it. -/
lemma Whole.runsFrom_follow (h : b.Whole t) (ht : t.Valid) {start stop : Nat} {style : Style}
    {rest : List Style} (hlt : start < stop) (hle : stop ≤ t.size)
    (hlast : b.styles[stop - 1]? = some style) (hrest : b.styles.toList.drop stop = rest) :
    RunsFollow t start (runsFrom start stop style rest) := by
  have hsize : b.styles.toList.length = t.size := by
    rw [Array.length_toList, b.size_styles, h.text]
  induction rest generalizing start stop style with
  | nil =>
    have hge := List.drop_eq_nil_iff.mp hrest
    obtain rfl : stop = t.size := by omega
    exact ⟨rfl, Nat.le_of_lt hlt, Text.isBoundary_size t, rfl⟩
  | cons s rest ih =>
    have hlt' : stop < t.size := by
      have := congrArg List.length hrest
      rw [List.length_drop, List.length_cons] at this
      omega
    have hhead : b.styles[stop]? = some s := by
      rw [← Array.getElem?_toList, ← List.head?_drop, hrest]
      rfl
    have htail : b.styles.toList.drop (stop + 1) = rest := by
      rw [← List.tail_drop, hrest]
      rfl
    unfold runsFrom
    split
    · rename_i heq
      subst heq
      exact ih (by omega) hlt' hhead htail
    · rename_i hne
      refine ⟨rfl, Nat.le_of_lt hlt, (Text.isBoundary_iff_byteIs ht).mpr ⟨hle, ?_⟩,
        ih (Nat.lt_succ_self _) hlt' hhead htail⟩
      -- a byte that continues a character would go on with the run
      refine Bool.eq_false_iff.mpr fun hcont => ?_
      obtain ⟨last, rfl⟩ : ∃ last, stop = last + 1 := ⟨stop - 1, by omega⟩
      have hsame := h.styles last hcont
      rw [hhead] at hsame
      exact hne (Option.some.inj (hsame.trans hlast))

/-- The runs of a buffer whose characters are whole follow each other through the text.

**Proof sketch.** The first run starts with the first byte, and the rest is `Whole.runsFrom_follow`. -/
theorem Whole.runs_follow (h : b.Whole t) (ht : t.Valid) : RunsFollow t 0 b.runs := by
  have hsize : b.styles.toList.length = t.size := by
    rw [Array.length_toList, b.size_styles, h.text]
  unfold runs
  split
  · rename_i hnil
    rw [hnil] at hsize
    exact hsize
  · rename_i s rest hcons
    rw [hcons, List.length_cons] at hsize
    refine h.runsFrom_follow ht (Nat.lt_succ_self 0) (by omega) ?_ (by rw [hcons]; rfl)
    rw [← Array.getElem?_toList, hcons]
    rfl

/-- Runs that follow each other can be cut out of the text. -/
lemma RunsFollow.slice {lo : Nat} {runs : List StyleRun} (h : RunsFollow t lo runs)
    (hlo : t.isBoundary lo = true) :
    ∀ run ∈ runs, t.slice run.start run.stop = .ok (t.between run.start run.stop) := by
  induction runs generalizing lo with
  | nil => simp
  | cons run rest ih =>
    obtain ⟨rfl, hle, hstop, hrest⟩ := h
    intro run' hrun'
    rcases List.mem_cons.mp hrun' with rfl | hrun'
    · exact Text.slice_eq_ok hle hlo hstop
    · exact ih hrest hstop run' hrun'

/-- Runs that follow each other make up the text. -/
lemma RunsFollow.join {lo : Nat} {runs : List StyleRun} (h : RunsFollow t lo runs) :
    Text.join (runs.map fun run => t.between run.start run.stop) = t.between lo t.size := by
  induction runs generalizing lo with
  | nil =>
    obtain rfl := h
    refine Text.ext_byteAt fun i => ?_
    rw [Text.byteAt_between, if_neg (by omega)]
    rfl
  | cons run rest ih =>
    obtain ⟨rfl, hle, hstop, hrest⟩ := h
    rw [List.map_cons, Text.join, ih hrest,
      Text.between_append hle (Text.le_size_of_isBoundary hstop)]

/-- Rendering writes the runs one after another.

**Proof sketch.** Induction on the runs, with what was written so far generalised. -/
lemma renderAnsi_eq_ok
    (h : ∀ run ∈ b.runs, b.text.slice run.start run.stop = .ok (b.text.between run.start run.stop))
    (theme : Theme) :
    b.renderAnsi theme = .ok (Text.join (b.runs.map fun run =>
      renderRun theme run.style (b.text.between run.start run.stop))) := by
  have hfold : ∀ (out : Text) (runs : List StyleRun),
      (∀ run ∈ runs, b.text.slice run.start run.stop = .ok (b.text.between run.start run.stop)) →
      runs.foldlM (fun out run => do
        let text ← b.text.slice run.start run.stop
        return out ++ renderRun theme run.style text) out =
        (.ok (out ++ Text.join (runs.map fun run =>
          renderRun theme run.style (b.text.between run.start run.stop))) : Checked Text) := by
    intro out runs
    induction runs generalizing out with
    | nil =>
      intro _
      exact congrArg _ (Text.append_empty out).symm
    | cons run rest ih =>
      intro hruns
      rw [List.foldlM_cons, hruns run (List.mem_cons_self ..)]
      refine (ih _ fun run' hrun' => hruns run' (List.mem_cons_of_mem _ hrun')).trans ?_
      rw [List.map_cons, Text.join, Text.append_assoc]
  rw [renderAnsi, hfold _ _ h, Text.empty_append]

end Buffer

/-! ### Sessions -/

namespace Session

/-- Characters stay whole along a run of requests that do not set styles themselves. -/
lemma serveAll_whole {s s' : Session} {requests : List Request} (hs : s.Healthy)
    (hdoc : s.doc.Whole s.doc.text) (ha : Request.AllAdmissible s.doc.text requests)
    (hr : ∀ request ∈ requests, request.setsStyles = false) (hrun : s.serveAll requests = .ok s') :
    s'.doc.text.Valid ∧ s'.doc.Whole s'.doc.text := by
  have hall : Request.AllAdmissible s.doc.text (requests ++ []) := by rwa [List.append_nil]
  obtain ⟨hhealthy, -, hwhole⟩ := serveAll_induction (Q := fun s => s.doc.Whole s.doc.text)
    (fun s request hmem kind s' hs ha hstep hdoc => hstep.whole hs ha (hr request hmem) hdoc) hs hall
    hrun hdoc
  exact ⟨hhealthy.valid, hwhole⟩

/-- **Rendering is total and loses nothing.** Let a valid text be edited between its characters, with
or without the highlighter being told, and let the highlighter be asked for full passes and told of
edits, rightly or wrongly, in every language and under every configuration. After any number of these
requests, none of which sets styles itself, all bytes of a character have one style. So the texts of
every style can be cut out, the texts of all runs are the text of the buffer one after another, and the
buffer can be rendered in every theme. If the text has no escape byte, what is left of the rendered text
without its color sequences is the text, whatever else than digits counts as a parameter of a sequence.
Fewer than `2 ^ 32` requests over texts shorter than `2 ^ 31` are served to their end.

**Proof sketch.** No request cuts a character by a change of style, so the runs follow each other from
one character to another. Rendering writes them side by side. -/
theorem serveAll_rendering (language : Language) (config : Config) {text : Text} (hv : text.Valid)
    {requests : List Request} (ha : Request.AllAdmissible text requests)
    (hr : ∀ request ∈ requests, request.setsStyles = false) :
    (text.size < 2 ^ 31 → requests.length < 2 ^ 32 → Request.AllBelow (2 ^ 31) text requests →
      ∃ s, (Session.new language config text).serveAll requests = .ok s) ∧
    ∀ s, (Session.new language config text).serveAll requests = .ok s →
      (∀ pos c, s.doc.text.charAt pos = some c →
        ∀ i, i < c.utf8Size → s.doc.styleAt (pos + i) = s.doc.styleAt pos) ∧
      (∀ style, ∃ texts, s.doc.styled style = .ok texts) ∧
      (∃ texts, s.doc.runs.mapM (fun run => s.doc.text.slice run.start run.stop) = .ok texts ∧
        Text.join texts = s.doc.text) ∧
      ∀ theme, ∃ out, s.doc.renderAnsi theme = .ok out ∧
        ((∀ i, s.doc.text.byteAt i ≠ some Mark.escape) →
          ∀ isParameter : UInt8 → Bool, (∀ b, 0x30 ≤ b → b ≤ 0x39 → isParameter b = true) →
            Mark.withoutSequences isParameter out.toMark = s.doc.text.toMark) := by
  refine ⟨fun hsize hn hb => ?_, fun s hrun => ?_⟩
  · obtain ⟨s, hs, -⟩ := serveAll_ensures (new_sound hv hsize language config) (Nat.le_refl _)
      requests (by rwa [Nat.zero_add]) ha hb
    exact ⟨s, hs⟩
  obtain ⟨hvalid, hwhole⟩ := serveAll_whole (new_healthy hv language config) (Buffer.whole_new text)
    ha hr hrun
  have hfollow := hwhole.runs_follow hvalid
  have hslices := hfollow.slice (Text.isBoundary_zero _)
  have hjoin := hfollow.join
  rw [Frame.between_whole] at hjoin
  refine ⟨fun pos c hat i hi => hwhole.styleAt hvalid hat hi, fun style => ?_, ?_, fun theme => ?_⟩
  · exact ⟨_, mapM_eq_ok fun run hrun => hslices run (List.mem_filter.mp hrun).1⟩
  · exact ⟨_, mapM_eq_ok hslices, hjoin⟩
  · refine ⟨_, Buffer.renderAnsi_eq_ok hslices theme, fun hescape isParameter hdigits => ?_⟩
    rw [Mark.withoutSequences_join hdigits theme hescape, hjoin]

/-- Characters of two bytes in an attribute name, in a value and in a variable, with an insertion before
one of them. -/
theorem serveAll_rendering_php :
    ∃ s out, (Session.new .php .standard (Text.ofString "<b \xe9=\"\xfc\"><?= $\xdf ?>")).serveAll
        [.highlight, .insert 3 (Text.ofString "a") true, .notify (.changed 90 true)] = .ok s ∧
      s.doc.renderAnsi .standard = .ok out ∧ s.doc.runs.length = 12 ∧ out ≠ s.doc.text ∧
      Mark.withoutSequences (fun _ => true) out.toMark = s.doc.text.toMark := by
  have hrun : (do
      let s ← (Session.new .php .standard (Text.ofString "<b \xe9=\"\xfc\"><?= $\xdf ?>")).serveAll
        [.highlight, .insert 3 (Text.ofString "a") true, .notify (.changed 90 true)]
      let out ← s.doc.renderAnsi .standard
      demand (s.doc.runs.length = 12 && out ≠ s.doc.text &&
        !s.doc.text.toMark.contains Mark.escape) .outOfRange) = .ok () := by
    decide +kernel
  obtain ⟨s, hs, hrun⟩ := bind_eq_ok.mp hrun
  obtain ⟨out, hout, hrun⟩ := bind_eq_ok.mp hrun
  have hfacts := demand_eq_ok_iff.mp hrun
  simp only [Bool.and_eq_true, decide_eq_true_eq, Bool.not_eq_true', List.contains_eq_mem,
    decide_eq_false_iff_not] at hfacts
  obtain ⟨⟨hruns, hcolored⟩, hescape⟩ := hfacts
  have hadmissible : Request.AllAdmissible (Text.ofString "<b \xe9=\"\xfc\"><?= $\xdf ?>")
      [.highlight, .insert 3 (Text.ofString "a") true, .notify (.changed 90 true)] :=
    ⟨trivial, ⟨Text.valid_ofString _, by decide⟩, trivial, trivial⟩
  obtain ⟨-, -, -, hrender⟩ := (serveAll_rendering .php .standard (Text.valid_ofString _) hadmissible
    (by decide)).2 s hs
  obtain ⟨out', hout', hback⟩ := hrender .standard
  obtain rfl := Except.ok.inj (hout.symm.trans hout')
  refine ⟨s, out, hs, hout, hruns, hcolored, hback (fun i hi => ?_) _ fun _ _ _ => rfl⟩
  exact hescape (Text.mem_toMark.mpr ⟨i, hi⟩)

end Session

end LexPaint
