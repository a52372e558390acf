import LexPaint.Proofs.FinalStyles

set_option relaxedAutoImplicit false
set_option autoImplicit false

/-!
# Comments and names behind a sign

Perl paints its variables over its comments. A sign in a comment introduces none, and a name ends in
front of the next hash sign and of the next equals sign, with which the comments of Perl start. There is
one exception. A hash sign right behind the sign is part of the name, because `$#` asks for the last index
of an array. The scan for comments leaves out just that mark, but a name takes the hash sign behind `@` and
`%` as well. So behind these two signs, and nowhere else, the first word of a comment is painted as a name.

## Main definitions

* `Layout.NameTakes`: a name that takes the mark of a line comment and reaches an offset.
* `Layout.KeepsComments`: a canvas that shows all comments except for such names.
* `Primitive.keepsComments`: painting tokens that keeps such a canvas.

## Main results

* `Frame.variableStep_takes`: where a variable reaches into a comment.
* `Primitive.run_keepsComments`, `Primitive.runAll_keepsComments`: the step and the run.
* `Painter.perl_comments`: the styles of the comments of Perl.
-/

namespace LexPaint

/-! ### Names and comments -/

/-- A name behind a sign takes the mark of a line comment, goes on behind it, and reaches an offset: no
blank and no character that ends a name comes before. -/
structure Layout.NameTakes (t : Text) (l : Layout) (sign : Char) (start i : Nat) : Prop where
  at_start : t.hasAt start (mark sign.toString) = true
  outside : ¬ l.InComment start
  mark_behind : ∃ iv ∈ l.lineComments.intervals, iv.start = start + 1
  lt : start < i
  nonempty : start + 2 < t.size
  name : ∀ j c, start + 2 ≤ j → j ≤ max i (start + 2) → t.charAt j = some c →
    (Unicode.isBlank c || Profile.variableEnds.contains c) = false

/-- Keeping a pass as history leaves its names. -/
lemma Layout.NameTakes.commit {t : Text} {l : Layout} {sign : Char} {start i : Nat}
    (h : l.NameTakes t sign start i) : l.commit.NameTakes t sign start i :=
  ⟨h.at_start, h.outside, h.mark_behind, h.lt, h.nonempty, h.name⟩

/-- A canvas shows comments as comments, except where a name behind one of some signs takes their mark. -/
def Layout.KeepsComments (l : Layout) (t : Text) (signs : List Char) (c : Buffer) : Prop :=
  ∀ i, i < t.size → l.InComment i → c.styles[i]? = some .comment ∨
    c.styles[i]? = some .variableName ∧ ∃ sign ∈ signs, ∃ start, l.NameTakes t sign start i

/-- A layout whose line comments start with a hash sign and whose block comments start with an equals
sign. -/
structure Layout.Hashed (t : Text) (l : Layout) : Prop where
  settled : l.Settled 0 t.size
  lineComments : ∀ iv ∈ l.lineComments.intervals, t.byteAt iv.start = some 0x23
  blockComments : ∀ iv ∈ l.blockComments.intervals, t.byteAt iv.start = some 0x3D

namespace Layout

variable {t : Text} {l : Layout} {signs : List Char} {c : Buffer} {start stop : Nat}

/-- A canvas of shades shows all comments. -/
lemma Hashed.keepsComments (h : l.Hashed t)
    (hc : ∀ i, i < t.size → c.styles[i]? = some (l.shade i)) : l.KeepsComments t signs c := by
  intro i hi hcomment
  have hshade : l.shade i = .comment := if_pos (h.settled.coversComment_iff.mpr hcomment)
  exact .inl (hshade ▸ hc i hi)

/-- What lies outside literals lies outside comments. -/
lemma Hashed.not_inComment (h : l.Hashed t) (hout : l.inLiteral start = false) :
    ¬ l.InComment start := by
  rw [← h.settled.inComment_iff, Bool.not_eq_true]
  exact (Bool.or_eq_false_iff.mp hout).2

/-- The bytes that the comments of Perl start with: a hash sign or an equals sign. -/
def opensHashed (b : UInt8) : Bool :=
  b == 0x23 || b == 0x3D

/-- A token without hash and equals signs that starts outside comments lies outside them.

**Proof sketch.** A comment that holds an offset of the token starts in it, and it starts with one of
the two bytes. -/
lemma Hashed.not_comment_of_start (h : l.Hashed t) (hstart : ¬ l.InComment start)
    (hbytes : ∀ i, start < i → i < stop → t.byteIs opensHashed i = false) {i : Nat} (hi : start ≤ i)
    (hstop : i < stop) : ¬ l.InComment i := by
  intro hcomment
  obtain ⟨iv, hiv, hlt, hle, -⟩ := hcomment.exists_start hstart hi
  have hbyte := hbytes iv.start hlt (by omega)
  unfold Text.byteIs at hbyte
  rcases hiv with hiv | hiv
  · rw [h.lineComments iv hiv] at hbyte
    cases hbyte
  · rw [h.blockComments iv hiv] at hbyte
    cases hbyte

end Layout

namespace Frame

variable {f : Frame} {l : Layout} {condition : Condition} {stop pos next : Nat} {token : Nat × Nat}

/-- **Where a variable reaches into a comment.** A variable that reaches into a comment has taken the mark
of a line comment right behind its sign.

**Proof sketch.** The comment starts inside the variable, with a character that ends names. So it starts in
front of where the search for the end of the name starts, and that is the hash sign behind the sign. -/
theorem variableStep_takes (hl : l.Hashed f.text) {sign : Char}
    {exceptions : List Char} (hsign : sign.utf8Size = 1) (hstop : stop ≤ f.text.size)
    (h : f.variableStep l condition sign Profile.variableEnds exceptions stop pos () =
      .ok (.go (.accepted token) next ())) {i : Nat} (h1 : token.1 ≤ i) (h2 : i < token.2)
    (hcomment : l.InComment i) : l.NameTakes f.text sign token.1 i := by
  obtain ⟨hat, hout, -, first, nameFrom, hfirst, hfrom, hnonempty, hle, hname⟩ :=
    variableStep_accepted h
  rw [hsign] at hfirst hfrom
  have hstart : ¬ l.InComment token.1 := by
    rw [← hl.settled.inComment_iff, hout]
    exact Bool.false_ne_true
  obtain ⟨iv, hiv, hlt, hle', -⟩ := hcomment.exists_start hstart h1
  -- a name ends in front of the hash sign of a comment and of the equals sign of a block
  have hbefore : iv.start < nameFrom := by
    refine Nat.lt_of_not_le fun hge => ?_
    rcases hiv with hiv | hiv
    · have hends := hname iv.start '#' hge (by omega)
        (Text.charAt_of_ascii (hl.lineComments iv hiv) (by decide))
      revert hends
      decide +kernel
    · have hends := hname iv.start '=' hge (by omega)
        (Text.charAt_of_ascii (hl.blockComments iv hiv) (by decide))
      revert hends
      decide +kernel
  split at hfrom
  · rename_i hhash
    have hbehind : iv.start = token.1 + 1 := by omega
    refine ⟨hat, hstart, ⟨iv, hiv.resolve_right fun hiv => ?_, hbehind⟩, by omega, by omega,
      fun j c hj hmax hc => hname j c (by omega) (by omega) hc⟩
    have hequals := Text.charAt_of_ascii (hl.blockComments iv hiv) (by decide)
    rw [hbehind, hfirst, hhash] at hequals
    revert hequals
    decide
  · omega

end Frame

/-! ### Painting tokens -/

namespace Pass

variable {f : Frame} {l : Layout} {signs : List Char} {condition : Condition} {c d : Buffer}
variable {style : Style}

/-- Sweeping the document for tokens keeps the comments, if a token that reaches into one is a name that
takes its mark.

**Proof sketch.** The tokens are painted one over the other, so a byte in one of them shows the style
of the tokens. If the byte lies in a comment, the exception applies. Other bytes stay as they are. -/
lemma paintTokens_keepsComments (hspans : f.Spans) (h : l.KeepsComments f.text signs c)
    (hc : c.text = f.text) {step : Nat → Nat → Unit → Checked (Sweep.Move Unit (Nat × Nat))}
    (htokens : ∀ pos token next, step f.hi pos () = .ok (.go (.accepted token) next ()) →
      ∀ i, token.1 ≤ i → i < token.2 → l.InComment i → style = .variableName ∧
        ∃ sign ∈ signs, ∃ start, l.NameTakes f.text sign start i)
    (hd : paintTokens (.document f.text) f step style c = .ok d) :
    l.KeepsComments f.text signs d ∧ d.text = f.text := by
  obtain ⟨tokens, hall, rfl, htext⟩ := paintTokens_eq_ok hspans htokens hd
  refine ⟨fun i hi hcomment => ?_, htext.trans hc⟩
  rw [Scene.styles_foldl_paint (fun token => token) hc tokens style hi]
  split
  · rename_i hany
    obtain ⟨token, htoken, hin⟩ := List.any_eq_true.mp hany
    simp only [Bool.and_eq_true, decide_eq_true_eq] at hin
    obtain ⟨rfl, htakes⟩ := hall token htoken i hin.1 hin.2 hcomment
    exact .inr ⟨rfl, htakes⟩
  · exact h i hi hcomment

/-- The same for a word without hash and equals signs.

**Proof sketch.** The word starts outside comments, and no comment starts at one of its bytes. -/
lemma paintOccurrences_keepsComments (hspans : f.Spans) (hl : l.Hashed f.text)
    (h : l.KeepsComments f.text signs c) (hc : c.text = f.text) {word : Mark}
    (hword : word.all (fun b => !Layout.opensHashed b) = true) {wholeWord : Bool}
    {notAfter : List Char}
    (hd : paintOccurrences (.document f.text) f l condition word (f.wordEnd word wholeWord notAfter)
      style c = .ok d) : l.KeepsComments f.text signs d ∧ d.text = f.text := by
  unfold paintOccurrences at hd
  split at hd
  · cases hd
    exact ⟨h, hc⟩
  · refine paintTokens_keepsComments hspans h hc
      (fun pos token next hgo i h1 h2 hcomment => absurd hcomment ?_) hd
    obtain ⟨hat, hend, hout⟩ := Frame.tokenStep_accepted hgo
    have hbytes : ∀ j, token.1 < j → j < token.2 → f.text.byteIs Layout.opensHashed j = false := by
      intro j hj hj'
      have hbyte := Frame.wordEnd_spares hword hat hend (Nat.le_of_lt hj) hj'
      obtain ⟨b, hb, hspared⟩ := Text.byteIs_iff.mp hbyte
      simpa [Text.byteIs, hb] using hspared
    exact hl.not_comment_of_start (hl.not_inComment hout) hbytes h1 h2

end Pass

namespace Primitive

/-- Whether a primitive paints tokens that keep the comments of Perl: words without hash and equals signs,
names behind one of some signs, or single bytes. -/
def keepsComments (signs : List Char) : Primitive → Bool
  | .keywords words _ _ _ => words.all fun w => w.all fun b => !Layout.opensHashed b
  | .signedVariable sign ends _ =>
    signs.contains sign && sign.utf8Size == 1 && ends == Profile.variableEnds
  | .marks _ _ => true
  | _ => false

end Primitive

/-- A pass that has mapped a layout and paints tokens that keep its comments. -/
structure Pass.KeepingComments (f : Frame) (l : Layout) (signs : List Char) (p : Pass) : Prop where
  text : p.canvas.text = f.text
  layout : p.layout = l
  quiet : p.repair = none
  keeps : l.KeepsComments f.text signs p.canvas

namespace Primitive

variable {f : Frame} {l : Layout} {signs : List Char} {p q : Pass}

/-- Painting tokens that keep the comments of Perl keeps them on the canvas.

**Proof sketch.** By cases on the primitive. Words and marks do not reach into comments, and a
variable that does is an exception (`Frame.variableStep_takes`). -/
theorem run_keepsComments (hspans : f.Spans) (hl : l.Hashed f.text) {primitive : Primitive}
    (hprimitive : primitive.keepsComments signs = true) (hp : p.KeepingComments f l signs)
    (h : run (.document f.text) primitive f p = .ok q) : q.KeepingComments f l signs := by
  obtain ⟨htext, rfl, hquiet, hkeeps⟩ := hp
  cases primitive with
  | keywords words wholeWord notAfter style =>
    simp only [run] at h
    simp only [keepsComments, List.all_eq_true] at hprimitive
    obtain ⟨d, hd, h⟩ := bind_eq_ok.mp h
    cases h
    obtain ⟨hkeeps', htext'⟩ := foldlM_induction
      (I := fun c : Buffer => p.layout.KeepsComments f.text signs c ∧ c.text = f.text)
      (fun word hword c c' hc hc' => Pass.paintOccurrences_keepsComments hspans hl hc.1 hc.2
        (List.all_eq_true.mpr (hprimitive word hword)) hc')
      ⟨hkeeps, htext⟩ hd
    exact ⟨htext', rfl, hquiet, hkeeps'⟩
  | signedVariable sign ends exceptions =>
    simp only [run] at h
    simp only [keepsComments, Bool.and_eq_true, beq_iff_eq] at hprimitive
    obtain ⟨⟨hsign, hsize⟩, rfl⟩ := hprimitive
    obtain ⟨d, hd, h⟩ := bind_eq_ok.mp h
    cases h
    obtain ⟨hkeeps', htext'⟩ := Pass.paintTokens_keepsComments hspans hkeeps htext
      (fun pos token next hgo i h1 h2 hcomment => ⟨rfl, sign, List.contains_iff_mem.mp hsign, token.1,
        Frame.variableStep_takes hl hsize (Nat.le_of_eq hspans.hi_eq) hgo h1 h2 hcomment⟩) hd
    exact ⟨htext', rfl, hquiet, hkeeps'⟩
  -- a single byte outside literals is all that its token has
  | marks bytes style =>
    simp only [run] at h
    obtain ⟨d, hd, h⟩ := bind_eq_ok.mp h
    cases h
    obtain ⟨hkeeps', htext'⟩ := Pass.paintTokens_keepsComments hspans hkeeps htext
      (fun pos token next hgo i h1 h2 hcomment => by
        obtain ⟨-, hout, hstop⟩ := Frame.markStep_accepted hgo
        obtain rfl : i = token.1 := by omega
        exact absurd hcomment (hl.not_inComment hout)) hd
    exact ⟨htext', rfl, hquiet, hkeeps'⟩
  | _ => cases hprimitive

/-- **Comments under tokens.** A run of tokens that keep the comments of Perl keeps them on the canvas.

**Proof sketch.** Induction on the program. -/
theorem runAll_keepsComments (hspans : f.Spans) (hl : l.Hashed f.text) {program : List Primitive}
    (hprogram : program.all (keepsComments signs) = true) (hp : p.KeepingComments f l signs)
    (h : runAll (.document f.text) program f p = .ok q) : q.KeepingComments f l signs := by
  induction program generalizing p with
  | nil =>
    simp only [runAll] at h
    cases h
    exact hp
  | cons primitive rest ih =>
    rw [List.all_cons, Bool.and_eq_true] at hprogram
    rw [runAll_cons hp.quiet] at h
    obtain ⟨p₁, hp₁, h⟩ := bind_eq_ok.mp h
    exact ih hprogram.2 (run_keepsComments hspans hl hprogram.1 hp hp₁) h

end Primitive

/-! ### Perl -/

namespace Profile

variable {t : Text} {q : Pass}

/-- The comments of Perl start with their marks, and no dollar sign stands in front of a line comment.

**Proof sketch.** A line comment starts at a mark that is not rejected, and one behind a dollar sign
would be. A block comment starts at one of the open marks of the documentation. -/
lemma hashed_perl (ht : t.Valid) (h : perl.freshPass t = .ok q)
    {p : Pass} {base : Buffer}
    (hmapped : p.Mapped (.document t perl.dialect) base (Primitive.mapping .start perl.program).1)
    (hlayout : q.layout = p.layout) : q.layout.Hashed t ∧
      ∀ iv ∈ q.layout.lineComments.intervals,
        MarkFilter.notBehindDollar.admits t iv.start = true := by
  have hcomments : perl.Comments .commentMark := comments_commentMark (by simp)
  have hrun : perl.runPass (Buffer.new t) 0 t.size false .empty .empty = .ok q := h
  obtain ⟨-, -, hlines⟩ := hcomments.reads.runPass ht hcomments.rules
    (fun m hm => (hcomments.marks m hm).1) hrun
  have hat : ∀ iv ∈ q.layout.lineComments.intervals, t.hasAt iv.start (mark "#") = true := by
    intro iv hiv
    have hany := (hlines.opened iv hiv).1
    rwa [show perl.dialect.lineMarks = [mark "#"] from rfl, List.any_cons, List.any_nil,
      Bool.or_false] at hany
  refine ⟨⟨hlayout ▸ hmapped.settled, fun iv hiv => ?_, fun iv hiv => ?_⟩, fun iv hiv => ?_⟩
  · exact Text.byteIs_eq_iff.mp (Text.byteIs_of_head? (by decide) (hat iv hiv))
  · obtain ⟨m, hm, hblock⟩ := hmapped.blocks iv (hlayout ▸ hiv)
    have hheads : (Primitive.mapping .start perl.program).1.blocks.all
        (fun m => m.1.head?.any (· == 0x3D)) = true := by
      decide +kernel
    exact Text.byteIs_eq_iff.mp
      (Text.byteIs_of_head? (List.all_eq_true.mp hheads m hm) hblock.opens)
  · have hb := Text.isBoundary_of_hasAt (by decide) (hat iv hiv)
    exact hcomments.admits hb fun hrejected => (hlines.opened iv hiv).2.2 (.inr (.inr (.inr hrejected)))

end Profile

namespace Painter

/-- **The comments of Perl.** After a full pass over any valid text, whatever the painter has seen before,
every byte of a line comment or of a block of documentation is styled as a comment, or it is styled as a
variable because a name behind `@` or `%` takes the mark of a line comment and reaches the byte. The pass
succeeds from every painter whose history is in order.

**Proof sketch.** Once the literals are mapped the canvas shows the comments. Words and brackets that start
outside comments stay outside, and a variable reaches into a comment behind its sign only. The scan for
line comments has refused the marks behind dollar signs. -/
theorem perl_comments {doc : Buffer} (hdoc : doc.text.Valid) :
    (∀ p : Painter, p.layout.HistoryOrdered → ∃ r, p.full .perl doc = .ok r) ∧
      ∀ (p p' : Painter) (doc' : Buffer), p.full .perl doc = .ok (p', doc') →
        ∀ i, i < doc.text.size → p'.layout.InComment i → doc'.styles[i]? = some .comment ∨
          doc'.styles[i]? = some .variableName ∧
            ∃ sign ∈ ['@', '%'], ∃ start, p'.layout.NameTakes doc.text sign start i := by
  have hsound : Profile.perl.Sound := Profile.sound_of_mem_builtIn (by simp [Profile.builtIn])
  refine ⟨fun p hp => ?_, fun p p' doc' hfull => ?_⟩
  · obtain ⟨r, hr, -⟩ := full_ensures hsound hdoc hp
    exact ⟨r, hr⟩
  · obtain ⟨fresh, hnew, hlayout, -⟩ := full_fresh hsound hdoc hfull
    obtain ⟨pass, hpass, hfresh⟩ := exists_freshPass hsound hdoc
    obtain ⟨rfl, rfl⟩ := Prod.mk.inj (Except.ok.inj (hnew.symm.trans hfresh))
    rw [hlayout]
    have hrun := Profile.fullRun hsound hdoc hpass
    have hplain : Primitive.isPlain Profile.perl.dialect Profile.perl.program = true := by
      decide +kernel
    obtain ⟨_, p₁, -, hmapped, hlayout₁, htokens⟩ := hrun.exists_mapped hplain
    obtain ⟨hhashed, hadmits⟩ := Profile.hashed_perl hdoc hpass hmapped hlayout₁
    have hkeeping : p₁.KeepingComments (.document doc.text Profile.perl.dialect) pass.layout
        ['$', '@', '%'] :=
      ⟨hmapped.text, hlayout₁.symm, hmapped.quiet,
        hhashed.keepsComments (hlayout₁ ▸ hmapped.shaded_of_plain hrun.plainCanvas)⟩
    have hkeeps := (Primitive.runAll_keepsComments hrun.spans hhashed (by decide +kernel) hkeeping
      htokens).keeps
    intro i hi hcomment
    refine (hkeeps i hi hcomment).imp_right ?_
    rintro ⟨hstyle, sign, hsign, start, htakes⟩
    refine ⟨hstyle, sign, (List.mem_cons.mp hsign).resolve_left ?_, start, htakes.commit⟩
    rintro rfl
    -- the mark behind a dollar sign would have been refused
    obtain ⟨iv, hiv, hstart⟩ := htakes.mark_behind
    have hdollar : doc.text.byteIs (· == 0x24) start = true :=
      Text.byteIs_of_head? (by decide) htakes.at_start
    have hadmitted := hadmits iv hiv
    rw [hstart] at hadmitted
    simp [MarkFilter.admits, hdollar] at hadmitted

/-- Behind `@` the first word of a comment is a name. What follows in the comment, a comment behind a
blank, and a sign in a block of documentation stay as they are. -/
theorem perl_comments_name :
    ∃ p doc', Painter.new.full .perl
        (Buffer.new (Text.ofString "@#x y\n% #x\n=pod\n@#x\n")) = .ok (p, doc') ∧
      (doc'.styles[2]? = some .variableName ∧ ∃ sign ∈ ['@', '%'], ∃ start,
        p.layout.NameTakes (Text.ofString "@#x y\n% #x\n=pod\n@#x\n") sign start 2) ∧
      ∀ i ∈ [4, 9, 18], p.layout.InComment i ∧ doc'.styles[i]? = some .comment := by
  have hdoc : (Buffer.new (Text.ofString "@#x y\n% #x\n=pod\n@#x\n")).text.Valid :=
    Text.valid_ofString _
  have hrun : (do
      let r ← Painter.new.full .perl (Buffer.new (Text.ofString "@#x y\n% #x\n=pod\n@#x\n"))
      demand ((r.1.layout.lineComments.intervals, r.1.layout.blockComments.intervals,
          [2, 4, 9, 18].map fun i => r.2.styles[i]?) =
        ((#[⟨1, 5, .lineComment⟩, ⟨8, 10, .lineComment⟩, ⟨17, 19, .lineComment⟩],
          #[⟨11, 20, .blockComment⟩],
          [some .variableName, some .comment, some .comment, some .comment]) :
            Array Interval × Array Interval × List (Option Style))) .outOfRange) = .ok () := by
    decide +kernel
  obtain ⟨⟨p, doc'⟩, hfull, hrun⟩ := bind_eq_ok.mp hrun
  have hfound := of_decide_eq_true (demand_eq_ok_iff.mp hrun)
  simp only [Prod.mk.injEq, List.map_cons, List.map_nil, List.cons.injEq, and_true] at hfound
  obtain ⟨hlines, hblocks, h2, h4, h9, h18⟩ := hfound
  have hkeeps := (perl_comments hdoc).2 Painter.new p doc' hfull
  have hcomment (i : Nat) (hi : 1 ≤ i ∧ i < 5 ∨ 8 ≤ i ∧ i < 10 ∨ 17 ≤ i ∧ i < 19) :
      p.layout.InComment i := by
    simpa [Layout.InComment, IntervalSet.Covers, hlines, hblocks] using .inl hi
  have hname := (hkeeps 2 (by decide +kernel) (hcomment 2 (by decide))).resolve_left (by rw [h2]; decide)
  refine ⟨p, doc', hfull, hname, ?_⟩
  simp only [List.forall_mem_cons, List.not_mem_nil, false_imp_iff, implies_true, and_true]
  exact ⟨⟨hcomment 4 (by decide), h4⟩, ⟨hcomment 9 (by decide), h9⟩, hcomment 18 (by decide), h18⟩

/-- So not all of a comment of Perl is styled as a comment. -/
theorem perl_comment_taken :
    ¬ ∀ (doc : Buffer) (p : Painter) (doc' : Buffer), doc.text.Valid →
      Painter.new.full .perl doc = .ok (p, doc') → ∀ i, i < doc.text.size →
        p.layout.InComment i → doc'.styles[i]? = some .comment := by
  intro hall
  have hrun : (do
      let r ← Painter.new.full .perl (Buffer.new (Text.ofString "@#x\n"))
      demand ((r.1.layout.lineComments.intervals, r.2.styles[1]?) =
        ((#[⟨1, 3, .lineComment⟩], some .variableName) : Array Interval × Option Style)) .outOfRange) =
        .ok () := by
    decide +kernel
  obtain ⟨⟨p, doc'⟩, hfull, hrun⟩ := bind_eq_ok.mp hrun
  have hfound := of_decide_eq_true (demand_eq_ok_iff.mp hrun)
  simp only [Prod.mk.injEq] at hfound
  obtain ⟨hlines, hstyle⟩ := hfound
  have hcomment : p.layout.InComment 1 :=
    .inl ⟨⟨1, 3, .lineComment⟩, by simp [hlines], by decide, by decide⟩
  have hshown := hall _ p doc' (Text.valid_ofString _) hfull 1 (by decide +kernel) hcomment
  rw [hstyle] at hshown
  cases hshown

end Painter

end LexPaint
