import LexPaint.Pass.Token
import LexPaint.Proofs.MarkupScans

set_option relaxedAutoImplicit false
set_option autoImplicit false

/-!
# Scans for tokens

Keywords, variables and brackets are looked for in the part of the section that lies in the scope.
This range may cut a line, and it may be empty. No step of such a scan asks for anything out of
range, provided that a name behind a sign is not cut off right behind its sign.

## Main definitions

* `Frame.TokenRange`: a range to look for tokens in.
* `Scene.WellFormed`: a section whose ends do not cut a line.

## Main results

* `Frame.paintOccurrences_ensures`, `Frame.paintVariables_ensures`, `Frame.paintMarks_ensures`: the
  scans for words, names and single bytes.
-/

namespace LexPaint

/-- A section of a valid document whose ends do not cut a line. -/
structure Scene.WellFormed (s : Scene) : Prop where
  valid : s.text.Valid
  ordered : s.start ≤ s.stop
  startCut : s.text.LineCut s.start
  stopCut : s.text.LineCut s.stop

namespace Scene.WellFormed

variable {s : Scene}

/-- A section starts between characters. -/
lemma startBoundary (hs : s.WellFormed) : s.text.isBoundary s.start = true :=
  hs.startCut.isBoundary hs.valid

/-- It ends between characters. -/
lemma stopBoundary (hs : s.WellFormed) : s.text.isBoundary s.stop = true :=
  hs.stopCut.isBoundary hs.valid

/-- It ends within the text. -/
lemma stop_le (hs : s.WellFormed) : s.stop ≤ s.text.size :=
  Text.le_size_of_isBoundary hs.stopBoundary

end Scene.WellFormed

/-- The document as a section of itself. -/
lemma Scene.wellFormed_whole {t : Text} (ht : t.Valid) (detect : Bool) :
    Scene.WellFormed ⟨t, 0, t.size, detect⟩ :=
  ⟨ht, Nat.zero_le _, .inl Text.startsLine_zero, .inr Text.endsLine_size⟩

/-- The bytes of the mark that is one character are its encoding. -/
lemma mark_toString (c : Char) : mark c.toString = String.utf8EncodeChar c := by
  rw [mark, Char.toString, String.toByteArray_singleton, List.utf8Encode_singleton]
  simp

/-- Such a mark is as long as its character. -/
lemma length_mark_toString (c : Char) : (mark c.toString).length = c.utf8Size := by
  rw [mark_toString, String.length_utf8EncodeChar]

/-- What goes up to the first character of a kind that line breaks are of, or to the end of the range
if there is none, lies on one line.

**Proof sketch.** If a character is found, it starts between characters, and no line break stands in
front of it because none of the characters there is of the kind. If none is found, the same holds of
the whole range. -/
lemma Text.findChar_getD_bounds {t : Text} {p : Char → Bool} (hp : p '\n' = true) (lo : Nat) {hi : Nat}
    (hb : t.isBoundary hi = true) :
    (t.findChar p lo hi).getD hi ≤ hi ∧ t.isBoundary ((t.findChar p lo hi).getD hi) = true ∧
      ∀ i, lo ≤ i → i < (t.findChar p lo hi).getD hi → t.byteAt i ≠ some newline := by
  cases hc : t.findChar p lo hi with
  | none =>
    refine ⟨Nat.le_refl _, hb, fun i h1 h2 hn => ?_⟩
    have hnot := Text.findChar_eq_none_iff.mp hc i '\n' h1 h2 (Text.charAt_newline hn)
    rw [hp] at hnot
    cases hnot
  | some found =>
    obtain ⟨-, hlt, ⟨c, hat, -⟩, hbefore⟩ := Text.findChar_eq_some_iff.mp hc
    refine ⟨Nat.le_of_lt hlt, Text.isBoundary_of_charAt hat, fun i h1 h2 hn => ?_⟩
    have hnot := hbefore i '\n' h1 h2 (Text.charAt_newline hn)
    rw [hp] at hnot
    cases hnot

namespace Frame

variable {f : Frame} {l : Layout} {pos stop : Nat}

/-- A range to look for tokens in: from a boundary of the scope to the end of a line or of the
scope, or empty. -/
structure TokenRange (f : Frame) (lo stop : Nat) : Prop where
  lo_ge : f.lo ≤ lo
  ordered : lo ≤ stop
  stopBoundary : f.text.isBoundary stop = true
  stop_le : lo < stop → stop ≤ f.hi
  ends : lo < stop → f.text.LineCut stop ∨ stop = f.hi

/-- What lies in the section and in the scope is a range to look for tokens in.

**Proof sketch.** Both ends are a maximum and a minimum of boundaries. If the range is not empty, its
end is that of the section, where a line ends, or that of the scope. -/
lemma tokenRange_fits {s : Scene} (hs : s.WellFormed) (hf : f.WellFormed)
    (ht : s.text = f.text) :
    f.TokenRange (s.tokenRange f).1 (s.tokenRange f).2 ∧
      f.text.isBoundary (s.tokenRange f).1 = true := by
  have hsb := ht ▸ hs.startBoundary
  have heb := ht ▸ hs.stopBoundary
  have hend := ht ▸ hs.stopCut
  have h1 := Text.isBoundary_max hsb hf.loBoundary
  have h2 := Text.isBoundary_max (Text.isBoundary_min heb hf.hiBoundary) h1
  simp only [Scene.tokenRange]
  refine ⟨⟨Nat.le_max_right _ _, Nat.le_max_right _ _, h2, fun h => by omega, fun hlt => ?_⟩, h1⟩
  rw [Nat.max_eq_left (by omega)]
  rcases Nat.le_total s.stop f.hi with hle | hle
  · rw [Nat.min_eq_left hle]
    exact .inl hend
  · exact .inr (Nat.min_eq_right hle)

/-- A token is not empty and lies on one line. -/
structure OnLine (t : Text) (token : Nat × Nat) : Prop where
  nonempty : token.1 < token.2
  stop_le : token.2 ≤ t.size
  noNewline : ∀ i, token.1 ≤ i → i < token.2 → t.byteAt i ≠ some newline

/-- A step of a scan for tokens stops if it has found nothing, and goes on to a boundary behind the
start of what it has found otherwise. The token that it accepts, if it does, starts there. -/
def Advances (f : Frame) (stop pos : Nat) (found : Option Nat) :
    Sweep.Move Unit (Nat × Nat) → Prop
  | .stop => found = none
  | .go verdict next _ =>
    ∃ start, found = some start ∧ pos ≤ start ∧ start < next ∧ next ≤ stop ∧
      f.text.isBoundary next = true ∧
      ∀ token, verdict = .accepted token → token.1 = start ∧ OnLine f.text token

/-- The end of a token is defined wherever its mark occurs, and the token lies on one line. -/
def TokenEnd.Defined (f : Frame) (needle : Mark) (tokenEnd : TokenEnd) : Prop :=
  ∀ start, f.text.hasAt start needle = true →
    Ensures (tokenEnd start) fun result => ∀ stop, result = some stop → OnLine f.text (start, stop)

/-- An occurrence of a plain mark lies on one line. -/
lemma onLine_of_hasAt {t : Text} {m : Mark} {start : Nat} (hm : m.IsPlain)
    (h : t.hasAt start m = true) : OnLine t (start, start + m.length) := by
  have hl : 0 < m.length := List.length_pos_iff.mpr hm.1
  exact ⟨show start < start + m.length by omega, Text.le_size_of_hasAt h hm.1,
    fun i h1 h2 => Text.byteAt_ne_newline hm h h1 h2⟩

/-- The end of a word is defined, and the word lies on one line. -/
lemma wordEnd_defined {word : Mark} (hw : word.IsPlain) (wholeWord : Bool)
    (notAfter : List Char) : TokenEnd.Defined f word (f.wordEnd word wholeWord notAfter) := by
  intro start hat
  refine .ok fun stop hstop => ?_
  split at hstop
  · obtain rfl := Option.some.inj hstop
    exact onLine_of_hasAt hw hat
  · cases hstop

/-- The longest suffix that fits is one of the suffixes and occurs, unless none fits.

**Proof sketch.** The greatest of some lengths is the length that the search starts with or one of
them. The search starts with no length and goes through the suffixes that fit. -/
lemma longestSuffix_eq_zero_or (t : Text) (pos : Nat) (suffixes : List Mark) :
    longestSuffix t pos suffixes = 0 ∨
      ∃ m ∈ suffixes, t.hasAt pos m = true ∧ longestSuffix t pos suffixes = m.length := by
  have h : ∀ (l : List Mark) (best : Nat), (l.map List.length).foldl max best = best ∨
      ∃ m ∈ l, (l.map List.length).foldl max best = m.length := by
    intro l
    induction l with
    | nil => exact fun _ => .inl rfl
    | cons m rest ih =>
      intro best
      rw [List.map_cons, List.foldl_cons]
      rcases ih (max best m.length) with h | ⟨m', hm', h⟩
      · rw [h]
        rcases Nat.le_total best m.length with hle | hle
        · exact .inr ⟨m, List.mem_cons_self .., Nat.max_eq_right hle⟩
        · exact .inl (Nat.max_eq_left hle)
      · exact .inr ⟨m', List.mem_cons_of_mem _ hm', h⟩
  rcases h (suffixes.filter (t.hasAt pos)) 0 with h | ⟨m, hm, h⟩
  · exact .inl h
  · obtain ⟨h1, h2⟩ := List.mem_filter.mp hm
    exact .inr ⟨m, h1, h2, h⟩

/-- The end of an extensible word is defined: the base lies on one line, and so does a suffix that
fits behind it. -/
lemma extendedEnd_defined (hf : f.WellFormed) {base : Mark} (hw : base.IsPlain)
    {suffixes : List Mark} (hs : ∀ m ∈ suffixes, m.IsPlain) :
    TokenEnd.Defined f base (f.extendedEnd base suffixes) := by
  intro start hat
  have hb := Text.isBoundary_add_length hf.valid hw hat
  have hbase := onLine_of_hasAt hw hat
  unfold extendedEnd
  refine .ite (fun _ => .pure (by simp)) fun _ => ?_
  dsimp only
  refine .bind (Text.checkRange_ensures (Text.le_size_of_isBoundary hb) hb
    (Text.isBoundary_size _)) fun _ _ => .pure fun stop hstop => ?_
  split at hstop
  · cases hstop
  · obtain rfl := Option.some.inj hstop
    rcases longestSuffix_eq_zero_or f.text (start + base.length) suffixes with
      h | ⟨m, hm, hmat, h⟩
    · rw [h]
      exact hbase
    · have hsuffix := onLine_of_hasAt (hs m hm) hmat
      rw [h]
      refine ⟨?_, hsuffix.stop_le, fun i h1 h2 => ?_⟩
      · have := hbase.nonempty
        show start < start + base.length + m.length
        dsimp only at this
        omega
      · rcases Nat.lt_or_ge i (start + base.length) with hlt | hge
        · exact hbase.noNewline i h1 hlt
        · exact hsuffix.noNewline i hge h2

/-- A step of the scan for a mark asks for nothing out of range, and it advances to what it has
found.

**Proof sketch.** The search stays in the range. An occurrence that is found ends behind its mark in
any case, so the scan goes on at a boundary behind the start of the occurrence. -/
lemma tokenStep_ensures (hf : f.WellFormed) (condition : Condition) {needle : Mark}
    (hn : needle.IsPlain) {tokenEnd : TokenEnd} (hend : TokenEnd.Defined f needle tokenEnd)
    (hr : f.TokenRange pos stop) (hb : f.text.isBoundary pos = true) (u : Unit) :
    Ensures (f.tokenStep l condition needle tokenEnd stop pos u)
      (f.Advances stop pos (f.text.find needle pos stop)) := by
  unfold tokenStep
  refine .bind (Text.checkRange_ensures hr.ordered hb hr.stopBoundary) fun _ _ => ?_
  split
  · rename_i hnone
    exact .pure hnone
  · rename_i start hfound
    rw [hfound]
    obtain ⟨h1, h2, hat⟩ := Text.find_bounds hfound
    have hl : 0 < needle.length := List.length_pos_iff.mpr hn.1
    have hfirst := Text.hasAt_iff.mp hat 0 hl
    have hascii := (hn.2 _ (List.getElem_mem hl)).1
    have hstop := hr.stop_le (by omega)
    have hlo := hr.lo_ge
    -- a plain mark starts with an ASCII byte
    have hnext : f.text.nextBoundary start = start + 1 :=
      Text.nextBoundary_of_ascii hf.valid hfirst hascii
    have hnb := Text.isBoundary_succ_of_ascii hf.valid hfirst hascii
    dsimp only
    rw [hnext]
    refine .bind (hend start hat) fun result hresult => ?_
    split
    · exact .pure ⟨start, rfl, h1, by omega, by omega, hnb, by simp⟩
    · rename_i tokenStop
      refine .ite (fun _ => .pure ⟨start, rfl, h1, by omega, by omega, hnb, by simp⟩) fun _ => ?_
      refine .bind (accepts_ensures hf (by omega) (by omega) (Text.isBoundary_of_hasAt hn hat)
        condition) fun accepted _ => ?_
      refine .ite (fun _ => .pure ⟨start, rfl, h1, by omega, by omega, hnb, fun token ht => ?_⟩)
        fun _ => .pure ⟨start, rfl, h1, by omega, by omega, hnb, by simp⟩
      cases ht
      exact ⟨rfl, hresult _ rfl⟩

/-! ### Names behind a sign -/

/-- A range to look for tokens in does not end between a sign and a hash sign.

**Proof sketch.** A range ends with a line, with the text or with the scope. No line ends between a
sign and a hash sign, the text goes on with the latter, and the scope is sealed. -/
lemma TokenRange.lt_stop_of_hash (hr : f.TokenRange pos stop) (hseal : f.text.Sealed f.hi)
    {sign : Char} (hsign : sign ≠ '\n') {start : Nat} (h1 : pos ≤ start)
    (hat : f.text.charAt start = some sign) (h2 : start + sign.utf8Size ≤ stop)
    (hhash : f.text.charAt (start + sign.utf8Size) = some '#') : start + sign.utf8Size < stop := by
  have hsize := sign.utf8Size_pos
  have hbyte : f.text.byteAt (start + sign.utf8Size) = some 0x23 :=
    Text.hasAt_iff.mp (Text.charAt_eq_some_iff.mp hhash) 0 (by decide)
  refine Nat.lt_of_le_of_ne h2 ?_
  rintro rfl
  rcases hr.ends (by omega) with ((h0 | ⟨h0, hn⟩) | (hs | hn)) | hhi
  · omega
  · exact Text.byteAt_ne_newline_of_charAt hat hsign (by omega) (by omega) hn
  · have := Text.lt_size_of_byteAt hbyte
    omega
  · rw [hn] at hbyte
    cases hbyte
  · exact hseal (hhi ▸ hbyte)

/-- A step of the scan for names asks for nothing out of range, and it advances to what it has found.

**Proof sketch.** Behind the sign the step reads one character, and if that is a hash sign, which
belongs to the name, it reads from behind it. `lt_stop_of_hash` says that this is still in the range.
The name ends on the line, because line breaks are blanks, and it ends between characters. -/
lemma variableStep_ensures (hf : f.WellFormed) (condition : Condition) {sign : Char}
    (hsign : sign ≠ '\n') (ends exceptions : List Char) (hseal : f.text.Sealed f.hi)
    (hr : f.TokenRange pos stop) (hb : f.text.isBoundary pos = true) (u : Unit) :
    Ensures (f.variableStep l condition sign ends exceptions stop pos u)
      (f.Advances stop pos (f.text.find (mark sign.toString) pos stop)) := by
  unfold variableStep
  refine .bind (Text.checkRange_ensures hr.ordered hb hr.stopBoundary) fun _ _ => ?_
  split
  · rename_i hnone
    exact .pure hnone
  · rename_i start hfound
    rw [hfound]
    obtain ⟨h1, h2, hat⟩ := Text.find_bounds hfound
    rw [length_mark_toString] at h2
    rw [mark_toString, ← Text.charAt_eq_some_iff] at hat
    have hsize := sign.utf8Size_pos
    have hstop := hr.stop_le (by omega)
    have hlo := hr.lo_ge
    have hnb := Text.isBoundary_add_utf8Size hf.valid hat
    dsimp only
    split
    · exact .pure ⟨start, rfl, h1, by omega, h2, hnb, by simp⟩
    · rename_i next hnext
      refine .ite (fun _ => .pure ⟨start, rfl, h1, by omega, h2, hnb, by simp⟩) fun _ => ?_
      refine .bind (P := fun _ => True) ?_ fun refused _ => ?_
      · unfold refusesVariable
        refine .ite (fun _ => .pure trivial) fun _ => ?_
        exact .bind (accepts_ensures hf (by omega) (by omega) (Text.isBoundary_of_charAt hat)
          condition) fun _ _ => .pure trivial
      · refine .ite (fun _ => .pure ⟨start, rfl, h1, by omega, h2, hnb, by simp⟩) fun _ => ?_
        -- the name starts behind the sign, and behind the hash sign if one follows
        have hfrom : ∃ nameFrom,
            (if next = '#' then start + sign.utf8Size + 1 else start + sign.utf8Size) = nameFrom ∧
              start < nameFrom ∧ nameFrom ≤ stop ∧ f.text.isBoundary nameFrom = true := by
          refine ⟨_, rfl, ?_⟩
          split
          · rename_i hhash
            subst hhash
            have hlt := hr.lt_stop_of_hash hseal hsign h1 hat h2 hnext
            exact ⟨by omega, by omega, Text.isBoundary_add_utf8Size hf.valid hnext⟩
          · exact ⟨by omega, h2, hnb⟩
        obtain ⟨nameFrom, hfrom, h3, h4, hfb⟩ := hfrom
        rw [hfrom]
        refine .bind (Text.checkRange_ensures h4 hfb hr.stopBoundary) fun _ _ => ?_
        refine .ite (fun hlt => ?_) fun _ => .pure ⟨start, rfl, h1, by omega, h2, hnb, by simp⟩
        obtain ⟨h5, h6, h7⟩ := Text.findChar_getD_bounds
          (p := fun c => Unicode.isBlank c || ends.contains c) (by simp [Unicode.isBlank]) nameFrom
          hr.stopBoundary
        refine .pure ⟨start, rfl, h1, by omega, h5, h6, fun token ht => ?_⟩
        cases ht
        refine ⟨rfl, ?_, Nat.le_trans h5 (Text.le_size_of_isBoundary hr.stopBoundary), ?_⟩
        · show start < _
          omega
        · intro i h8 h9
          rcases Nat.lt_or_ge i (start + sign.utf8Size) with hlt' | hge
          · exact Text.byteAt_ne_newline_of_charAt hat hsign h8 hlt'
          · rcases Nat.lt_or_ge i nameFrom with hlt' | hge'
            · -- only a hash sign right behind the sign stands before the name
              split at hfrom
              · rename_i hhash
                subst hhash
                exact Text.byteAt_ne_newline_of_charAt hnext (by decide) hge
                  (show i < start + sign.utf8Size + 1 by omega)
              · omega
            · exact h7 i hge' h9

/-! ### Single bytes -/

/-- A step of the scan for single bytes asks for nothing out of range, and it advances to what it has
found. -/
lemma markStep_ensures (hf : f.WellFormed) {bytes : List UInt8}
    (hbytes : ∀ b ∈ bytes, b < 0x80 ∧ b ≠ newline)
    (hr : f.TokenRange pos stop) (u : Unit) :
    Ensures (f.markStep l bytes stop pos u)
      (f.Advances stop pos (f.text.findByte bytes.contains pos stop)) := by
  unfold markStep
  refine .bind (Text.checkBytes_ensures hr.ordered (Text.le_size_of_isBoundary hr.stopBoundary))
    fun _ _ => ?_
  split
  · rename_i hnone
    exact .pure hnone
  · rename_i start hfound
    rw [hfound]
    obtain ⟨h1, h2, hbyte⟩ := Text.findByte_bounds hfound
    obtain ⟨b, hb, hmem⟩ := Text.byteIs_iff.mp hbyte
    have hnb := Text.isBoundary_succ_of_ascii hf.valid hb (hbytes b (by simpa using hmem)).1
    refine .ite (fun _ => .pure ⟨start, rfl, h1, by omega, by omega, hnb, by simp⟩) fun _ => ?_
    refine .pure ⟨start, rfl, h1, by omega, by omega, hnb, fun token ht => ?_⟩
    cases ht
    refine ⟨rfl, Nat.lt_succ_self _, Text.lt_size_of_byteAt hb, fun i h3 h4 => ?_⟩
    obtain rfl : i = start := Nat.le_antisymm (Nat.le_of_lt_succ h4) h3
    rw [hb]
    intro hn
    exact (hbytes b (by simpa using hmem)).2 (Option.some.inj hn)

/-! ### Scans -/

/-- A scan for tokens: wherever it is in a range, its step advances to what it finds. -/
def Scans (f : Frame) (step : Nat → Nat → Unit → Checked (Sweep.Move Unit (Nat × Nat))) : Prop :=
  ∀ pos stop, f.TokenRange pos stop → f.text.isBoundary pos = true →
    Ensures (step stop pos ()) fun m => ∃ found, f.Advances stop pos found m

/-- The scan for a mark is a scan for tokens. -/
lemma tokenStep_scans (hf : f.WellFormed) (condition : Condition) {needle : Mark}
    (hn : needle.IsPlain) {tokenEnd : TokenEnd} (hend : TokenEnd.Defined f needle tokenEnd) :
    f.Scans (f.tokenStep l condition needle tokenEnd) :=
  fun _ _ hr hb => (tokenStep_ensures hf condition hn hend hr hb ()).mono fun _ h => ⟨_, h⟩

/-- So is the scan for names behind a sign. -/
lemma variableStep_scans (hf : f.WellFormed) (condition : Condition) {sign : Char}
    (hsign : sign ≠ '\n') (ends exceptions : List Char) (hseal : f.text.Sealed f.hi) :
    f.Scans (f.variableStep l condition sign ends exceptions) :=
  fun _ _ hr hb =>
    (variableStep_ensures hf condition hsign ends exceptions hseal hr hb ()).mono fun _ h => ⟨_, h⟩

/-- So is the scan for single bytes. -/
lemma markStep_scans (hf : f.WellFormed) {bytes : List UInt8}
    (hbytes : ∀ b ∈ bytes, b < 0x80 ∧ b ≠ newline) : f.Scans (f.markStep l bytes) :=
  fun _ _ hr _ => (markStep_ensures hf hbytes hr ()).mono fun _ h => ⟨_, h⟩

/-- A scan succeeds. Its tokens start in the range, and each lies on one line.

**Proof sketch.** By induction along the sweep every offset that it comes to is a boundary in the
range, from where the rest is a range to look for tokens in again. -/
lemma Scans.collect_ensures {step : Nat → Nat → Unit → Checked (Sweep.Move Unit (Nat × Nat))}
    (hscan : f.Scans step) {lo : Nat} (hr : f.TokenRange lo stop)
    (hb : f.text.isBoundary lo = true) :
    Ensures (Sweep.collect (step stop) stop lo ()) fun h =>
      ∀ token ∈ h.items, lo ≤ token.1 ∧ token.1 < stop ∧ OnLine f.text token := by
  have hrange (pos : Nat) (h1 : lo ≤ pos) (h2 : pos ≤ stop) : f.TokenRange pos stop :=
    ⟨Nat.le_trans hr.lo_ge h1, h2, hr.stopBoundary, fun h => hr.stop_le (by omega),
      fun h => hr.ends (by omega)⟩
  refine Sweep.collect_ensures
    (I := fun pos _ h => lo ≤ pos ∧ pos ≤ stop ∧ f.text.isBoundary pos = true ∧
      ∀ token ∈ h.items, lo ≤ token.1 ∧ token.1 < stop ∧ OnLine f.text token)
    (fun pos u h hI => ?_)
    ⟨Nat.le_refl _, hr.ordered, hb, Sweep.forall_mem_empty⟩ fun _ _ _ hI => hI.2.2.2
  obtain ⟨h1, h2, h3, hitems⟩ := hI
  refine (hscan pos stop (hrange pos h1 h2) h3).mono fun m hm => ?_
  obtain ⟨found, hm⟩ := hm
  cases m with
  | stop => trivial
  | go verdict next u =>
    obtain ⟨start, -, h4, h5, h6, h7, htoken⟩ := hm
    refine ⟨h6, by omega, h6, h7, Sweep.forall_mem_add hitems fun token ht => ?_⟩
    obtain ⟨rfl, hline⟩ := htoken token ht
    exact ⟨by omega, by omega, hline⟩

end Frame

namespace Scene

/-- Painting keeps the text. -/
@[simp]
lemma text_paint (s : Scene) (canvas : Buffer) (start stop : Nat) (style : Style) :
    (s.paint canvas start stop style).text = canvas.text := by
  unfold paint
  dsimp only
  split <;> rfl

/-- Painting keeps the text, whatever is painted. -/
lemma text_foldl {α : Type} {g : Buffer → α → Buffer} (hg : ∀ canvas a, (g canvas a).text = canvas.text)
    (xs : List α) (canvas : Buffer) : (xs.foldl g canvas).text = canvas.text := by
  induction xs generalizing canvas with
  | nil => rfl
  | cons x rest ih => rw [List.foldl_cons, ih, hg]

/-- So does painting all intervals of a list. -/
@[simp]
lemma text_paintAll (s : Scene) (canvas : Buffer) (ivs : Array Interval) (style : Style) :
    (s.paintAll canvas ivs style).text = canvas.text := by
  rw [paintAll, ← Array.foldl_toList]
  exact text_foldl (fun canvas iv => text_paint s canvas _ _ _) _ _

end Scene

namespace Pass

variable {f : Frame} {s : Scene}

/-- Painting the tokens of a scan succeeds and keeps the text. -/
lemma paintTokens_ensures {step : Nat → Nat → Unit → Checked (Sweep.Move Unit (Nat × Nat))}
    (hs : s.WellFormed) (hf : f.WellFormed) (ht : s.text = f.text) (hscan : f.Scans step)
    (style : Style) (canvas : Buffer) :
    Ensures (paintTokens s f step style canvas) fun c => c.text = canvas.text := by
  obtain ⟨hr, hb⟩ := Frame.tokenRange_fits hs hf ht
  unfold paintTokens
  dsimp only
  refine .bind (hscan.collect_ensures hr hb) fun h _ => .pure ?_
  rw [← Array.foldl_toList]
  exact Scene.text_foldl (fun canvas token => Scene.text_paint s canvas _ _ _) _ _

/-- So does painting the occurrences of a mark. -/
lemma paintOccurrences_ensures (hs : s.WellFormed) (hf : f.WellFormed) (ht : s.text = f.text)
    (l : Layout) (condition : Condition) {needle : Mark} (hn : needle.IsPlain)
    {tokenEnd : Frame.TokenEnd} (hend : Frame.TokenEnd.Defined f needle tokenEnd) (style : Style)
    (canvas : Buffer) :
    Ensures (paintOccurrences s f l condition needle tokenEnd style canvas) fun c =>
      c.text = canvas.text := by
  unfold paintOccurrences
  refine .ite (fun _ => .ok rfl) fun _ => ?_
  exact paintTokens_ensures hs hf ht (Frame.tokenStep_scans hf condition hn hend) style canvas

end Pass

end LexPaint
