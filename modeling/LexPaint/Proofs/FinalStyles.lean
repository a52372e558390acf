import LexPaint.Proofs.LiteralStarts

set_option relaxedAutoImplicit false
set_option autoImplicit false

/-!
# The styles after a full pass

Once the literals are mapped, the canvas shows them: comments as comments, and strings and heredocs as
strings. Tokens are painted over it. A word or a bracket starts outside literals and has no byte that
opens one, so it stays outside. The name of a variable may lie in a string, but it ends before the next
slash or hash sign, so it never reaches into a comment.

## Main definitions

* `Style.marksCode`: the styles of keywords, brackets and braces.
* `Layout.Shows`: a canvas that shows comments as comments, and code only outside literals.
* `Primitive.sparesLiterals`, `Primitive.sparesAll`: painting tokens that keeps such a canvas.
* `Frame.MarksFound`: what the scan for single bytes has found in front of an offset.
* `Primitive.marksLast`: behind the marks of a program only other marks are painted.

## Main results

* `Primitive.runAll_shows`: what the rest of a program keeps.
* `Painter.full_styles`: final styles and literals tell the same story.
-/

namespace LexPaint

/-- Whether a style belongs to code: to keywords, brackets or braces. -/
def Style.marksCode : Style → Bool
  | keyword | bracket | brace => true
  | _ => false

/-! ### Canvases that show a layout -/

/-- A canvas shows comments as comments and nothing else so, code only outside literals, and strings
only where strings or heredocs are. -/
structure Layout.Shows (l : Layout) (t : Text) (c : Buffer) : Prop where
  comment : ∀ i, i < t.size → (c.styles[i]? = some .comment ↔ l.InComment i)
  code : ∀ i style, i < t.size → style.marksCode = true → c.styles[i]? = some style →
    ¬ (l.InString i ∨ l.InComment i)
  string : ∀ i, i < t.size → c.styles[i]? = some .string → l.InString i

namespace Layout

variable {t : Text} {l : Layout} {c : Buffer}

/-- A canvas of shades shows the layout.

**Proof sketch.** The shade of an offset tells whether a comment covers it, and whether a string or a
heredoc does where no comment is. Quote operators do not occur. -/
lemma Coded.shows (h : l.Coded t) (hc : ∀ i, i < t.size → c.styles[i]? = some (l.shade i)) :
    l.Shows t c := by
  have hsort {sort : RepairReason} {set : IntervalSet} (hmem : (sort, set) ∈ l.sets)
      (hset : set.Nested) (i : Nat) : l.coversSort sort i = true ↔ set.Covers i := by
    rw [h.settled.coversSort_eq hmem hset, IntervalSet.isSome_inString_iff hset]
  have hquotes : ∀ i, l.coversSort .quotes i = true ↔ l.quotes.Covers i :=
    hsort (by simp [sets]) h.settled.quotes.nested
  have hheredocs : ∀ i, l.coversSort .heredocs i = true ↔ l.composite.heredocs.Covers i :=
    hsort (by simp [sets]) h.settled.heredocs.nested
  have hoperators (i : Nat) : l.coversSort .quoteOperators i = false := by
    have hcovers : l.coversSort .quoteOperators i = true ↔ l.composite.operators.Covers i :=
      hsort (by simp [sets]) h.settled.operators.nested i
    rw [Bool.eq_false_iff, ne_eq, hcovers]
    rintro ⟨iv, hiv, -⟩
    rw [h.noOperators] at hiv
    exact Array.not_mem_empty _ hiv
  -- the three shades that a layout without quote operators has
  have hshade (i : Nat) : l.InComment i ∧ l.shade i = .comment ∨
      ¬ l.InComment i ∧ (l.InString i ∧ l.shade i = .string ∨
        ¬ l.InString i ∧ l.shade i = .plain) := by
    unfold shade
    by_cases hcomment : l.InComment i
    · exact .inl ⟨hcomment, if_pos (h.settled.coversComment_iff.mpr hcomment)⟩
    · refine .inr ⟨hcomment, ?_⟩
      rw [if_neg (mt h.settled.coversComment_iff.mp hcomment), hoperators, Bool.or_false]
      by_cases hstring : l.InString i
      · refine .inl ⟨hstring, if_pos ?_⟩
        rwa [Bool.or_eq_true, hquotes, hheredocs]
      · refine .inr ⟨hstring, if_neg ?_⟩
        rwa [Bool.or_eq_true, hquotes, hheredocs]
  refine ⟨fun i hi => ?_, fun i style hi hcode hstyle => ?_, fun i hi hstyle => ?_⟩
  · rw [hc i hi, Option.some.injEq]
    rcases hshade i with ⟨h1, h2⟩ | ⟨h1, ⟨-, h2⟩ | ⟨-, h2⟩⟩ <;> simp [h1, h2]
  · rw [hc i hi, Option.some.injEq] at hstyle
    rcases hshade i with ⟨-, h2⟩ | ⟨h1, ⟨-, h2⟩ | ⟨h2, -⟩⟩
    · rw [← hstyle, h2] at hcode
      cases hcode
    · rw [← hstyle, h2] at hcode
      cases hcode
    · exact not_or.mpr ⟨h2, h1⟩
  · rw [hc i hi, Option.some.injEq] at hstyle
    rcases hshade i with ⟨-, h2⟩ | ⟨-, ⟨h1, -⟩ | ⟨-, h2⟩⟩
    · rw [h2] at hstyle
      cases hstyle
    · exact h1
    · rw [h2] at hstyle
      cases hstyle

/-- Painting ranges outside comments, and those of code outside strings, keeps what a canvas shows.

**Proof sketch.** A byte of a token shows the style of a token afterwards, and it lies outside what
the style may not cover. Every other byte shows what it did before. -/
lemma Shows.paint (h : l.Shows t c) (hc : c.text = t) {tokens : List (Nat × Nat)} {style : Style}
    (hstyle : style ≠ .comment ∧ style ≠ .string)
    (htokens : ∀ token ∈ tokens, ∀ i, token.1 ≤ i → i < token.2 →
      ¬ l.InComment i ∧ (style.marksCode = true → ¬ l.InString i)) :
    l.Shows t (tokens.foldl (fun c token => (Scene.document t).paint c token.1 token.2 style) c) := by
  have hpainted (i : Nat) (hi : i < t.size) :=
    Scene.styles_foldl_paint (fun token => token) hc tokens style hi
  have hreach (i : Nat) (hany : tokens.any (fun token => token.1 ≤ i && i < token.2) = true) :
      ¬ l.InComment i ∧ (style.marksCode = true → ¬ l.InString i) := by
    obtain ⟨token, htoken, hin⟩ := List.any_eq_true.mp hany
    simp only [Bool.and_eq_true, decide_eq_true_eq] at hin
    exact htokens token htoken i hin.1 hin.2
  refine ⟨fun i hi => ?_, fun i style' hi hcode hstyle' => ?_, fun i hi hstyle' => ?_⟩
  · rw [hpainted i hi]
    split
    · rename_i hany
      simp [hstyle.1, (hreach i hany).1]
    · exact h.comment i hi
  · rw [hpainted i hi] at hstyle'
    split at hstyle'
    · rename_i hany
      obtain rfl := Option.some.inj hstyle'
      exact not_or.mpr ⟨(hreach i hany).2 hcode, (hreach i hany).1⟩
    · exact h.code i style' hi hcode hstyle'
  · rw [hpainted i hi] at hstyle'
    split at hstyle'
    · exact absurd (Option.some.inj hstyle') hstyle.2
    · exact h.string i hi hstyle'

end Layout

/-! ### Tokens that spare literals -/

/-- The bytes of a mark stand where it occurs. -/
lemma Text.byteIs_of_hasAt {t : Text} {m : Mark} {P : UInt8 → Bool} (hm : m.all P = true)
    {pos i : Nat} (hat : t.hasAt pos m = true) (h1 : pos ≤ i) (h2 : i < pos + m.length) :
    t.byteIs P i = true := by
  have hbyte := Text.hasAt_iff.mp hat (i - pos) (by omega)
  rw [Nat.add_sub_cancel' h1] at hbyte
  exact Text.byteIs_iff.mpr ⟨_, hbyte, List.all_eq_true.mp hm _ (List.getElem_mem _)⟩

/-- An ASCII byte is the character of its code. -/
lemma Text.charAt_of_ascii {t : Text} {i : Nat} {b : UInt8} (h : t.byteAt i = some b) (hb : b < 0x80) :
    t.charAt i = some (Char.ofUInt8 b) := by
  have hall : ∀ n : Fin 256, UInt8.ofFin n < 0x80 →
      String.utf8EncodeChar (Char.ofUInt8 (UInt8.ofFin n)) = [UInt8.ofFin n] := by
    decide +kernel
  have henc : String.utf8EncodeChar (Char.ofUInt8 b) = [b] := by
    simpa using hall b.toFin (by simpa using hb)
  rw [Text.charAt_eq_some_iff, henc]
  simp [Text.hasAt, Text.byteIs_eq_iff, h]

namespace Frame

variable {f : Frame} {l : Layout} {condition : Condition} {stop pos : Nat} {token : Nat × Nat}
variable {next : Nat}

/-- A word that is accepted starts with its mark outside literals, and it ends where the program
says.

**Proof sketch.** The step accepts in one of its branches only, behind all of its tests. -/
lemma tokenStep_accepted {needle : Mark} {tokenEnd : TokenEnd}
    (h : f.tokenStep l condition needle tokenEnd stop pos () =
      .ok (.go (.accepted token) next ())) :
    f.text.hasAt token.1 needle = true ∧ tokenEnd token.1 = .ok (some token.2) ∧
      l.inLiteral token.1 = false := by
  obtain ⟨_, -, h⟩ := bind_eq_ok.mp h
  split at h
  · cases h
  · rename_i start hstart
    obtain ⟨result, hresult, h⟩ := bind_eq_ok.mp h
    cases result with
    | none => cases h
    | some tokenStop =>
      dsimp only at h
      split at h
      · cases h
      · rename_i hout
        obtain ⟨accepted, -, h⟩ := bind_eq_ok.mp h
        split at h
        · cases h
          exact ⟨(Text.find_bounds hstart).2.2, hresult, by simpa using hout⟩
        · cases h

/-- A byte that is accepted is one of those looked for and lies outside literals. -/
lemma markStep_accepted {bytes : List UInt8}
    (h : f.markStep l bytes stop pos () = .ok (.go (.accepted token) next ())) :
    f.text.byteIs bytes.contains token.1 = true ∧ l.inLiteral token.1 = false ∧
      token.2 = token.1 + 1 := by
  obtain ⟨_, -, h⟩ := bind_eq_ok.mp h
  split at h
  · cases h
  · rename_i start hstart
    split at h
    · cases h
    · rename_i hout
      cases h
      exact ⟨(Text.findByte_bounds hstart).2.2, by simpa using hout, rfl⟩

/-- A sign that introduces a variable lies outside comments, and the dialect accepts it.

**Proof sketch.** The branches of the program are gone through. -/
lemma refusesVariable_eq_false (h : f.refusesVariable l condition pos = .ok false) :
    l.inComment pos = false ∧ f.accepts pos condition = .ok true := by
  unfold refusesVariable at h
  split at h
  · cases h
  · rename_i hout
    obtain ⟨accepted, haccepted, h⟩ := bind_eq_ok.mp h
    cases accepted with
    | false => cases h
    | true => exact ⟨Bool.eq_false_iff.mpr (not_or.mp (mt (Bool.or_eq_true _ _).mpr hout)).2, haccepted⟩

/-- A variable that is accepted starts with its sign outside comments. Behind the sign, and a hash
sign if one follows, comes the name, which has no blank and none of the characters that end names.

**Proof sketch.** The step accepts in one of its branches only. A character follows the sign there,
the sign is not refused, and the name runs to the first character that ends it. -/
lemma variableStep_accepted {sign : Char} {ends exceptions : List Char}
    (h : f.variableStep l condition sign ends exceptions stop pos () =
      .ok (.go (.accepted token) next ())) :
    f.text.hasAt token.1 (mark sign.toString) = true ∧ l.inComment token.1 = false ∧
      f.accepts token.1 condition = .ok true ∧
      ∃ first nameFrom, f.text.charAt (token.1 + sign.utf8Size) = some first ∧
        nameFrom = (if first = '#' then token.1 + sign.utf8Size + 1 else token.1 + sign.utf8Size) ∧
        nameFrom < token.2 ∧ token.2 ≤ stop ∧
        ∀ i c, nameFrom ≤ i → i < token.2 → f.text.charAt i = some c →
          (Unicode.isBlank c || ends.contains c) = false := by
  obtain ⟨_, -, h⟩ := bind_eq_ok.mp h
  split at h
  · cases h
  · rename_i start hstart
    dsimp only at h
    split at h
    · cases h
    · rename_i first hfirst
      split at h
      · cases h
      · obtain ⟨refused, hrefused, h⟩ := bind_eq_ok.mp h
        cases refused with
        | true => cases h
        | false =>
          obtain ⟨houtside, haccepts⟩ := refusesVariable_eq_false hrefused
          rw [if_neg Bool.false_ne_true] at h
          generalize hfrom : (if first = '#' then start + sign.utf8Size + 1 else
            start + sign.utf8Size) = nameFrom at h
          obtain ⟨_, -, h⟩ := bind_eq_ok.mp h
          split at h
          · rename_i hnonempty
            cases h
            refine ⟨(Text.find_bounds hstart).2.2, houtside, haccepts, first, nameFrom, hfirst,
              hfrom.symm, hnonempty, ?_⟩
            cases hname : f.text.findChar (fun c => Unicode.isBlank c || ends.contains c) nameFrom
                stop with
            | none => exact ⟨Nat.le_refl _, Text.findChar_eq_none_iff.mp hname⟩
            | some j =>
              obtain ⟨-, hj, -, hbefore⟩ := Text.findChar_eq_some_iff.mp hname
              exact ⟨Nat.le_of_lt hj, hbefore⟩
          · cases h

/-- The bytes between the ends of a word are those of the word. -/
lemma wordEnd_spares {word : Mark} {wholeWord : Bool} {notAfter : List Char} {start tokenStop : Nat}
    {P : UInt8 → Bool} (hword : word.all P = true) (hat : f.text.hasAt start word = true)
    (h : f.wordEnd word wholeWord notAfter start = .ok (some tokenStop)) {i : Nat} (h1 : start ≤ i)
    (h2 : i < tokenStop) : f.text.byteIs P i = true := by
  have hstop : tokenStop = start + word.length := by
    unfold wordEnd at h
    dsimp only at h
    split at h <;> cases h
    rfl
  exact Text.byteIs_of_hasAt hword hat h1 (hstop ▸ h2)

/-- A base word with its suffix has no bytes that open a literal, if neither of the two has any.

**Proof sketch.** The bytes up to the end of the base are its own, and those behind it are the bytes
of the longest suffix that occurs. -/
lemma extendedEnd_spares {base : Mark} {suffixes : List Mark} {start tokenStop : Nat}
    (hbase : base.all Layout.opensNothing = true)
    (hsuffixes : ∀ m ∈ suffixes, m.all Layout.opensNothing = true)
    (hat : f.text.hasAt start base = true)
    (h : f.extendedEnd base suffixes start = .ok (some tokenStop)) {i : Nat} (h1 : start ≤ i)
    (h2 : i < tokenStop) : f.text.byteIs Layout.opensNothing i = true := by
  unfold extendedEnd at h
  split at h
  · cases h
  · obtain ⟨_, -, h⟩ := bind_eq_ok.mp h
    have hstop : tokenStop = start + base.length +
        longestSuffix f.text (start + base.length) suffixes := by
      dsimp only at h
      split at h <;> cases h
      rfl
    rcases Nat.lt_or_ge i (start + base.length) with hlt | hge
    · exact Text.byteIs_of_hasAt hbase hat h1 hlt
    · rcases longestSuffix_eq_zero_or f.text (start + base.length) suffixes with
        hzero | ⟨m, hm, hmat, hlength⟩
      · omega
      · exact Text.byteIs_of_hasAt (hsuffixes m hm) hmat hge (by omega)

/-- The name of a variable has neither a slash nor a hash sign, where one ends a name and a letter has
to follow the sign.

**Proof sketch.** An ASCII byte is the character of its code, so a slash or a hash sign would end the
name. The first character behind the sign is a letter, as the dialect demands. -/
lemma variableStep_spares (hspans : f.Spans) {sign : Char}
    {ends exceptions : List Char} (htest : f.dialect.tests.lookup condition = some .nameFollows)
    (hsign : sign.utf8Size = 1) (hslash : ends.contains '/' = true) (hhash : ends.contains '#' = true)
    (h : f.variableStep l condition sign ends exceptions stop pos () =
      .ok (.go (.accepted token) next ())) {i : Nat} (h1 : token.1 < i) (h2 : i < token.2) :
    f.text.byteIs Layout.opensComment i = false := by
  obtain ⟨-, -, haccepts, first, nameFrom, hfirst, hfrom, -, -, hname⟩ := variableStep_accepted h
  have hfirst' : first ≠ '#' := by
    rintro rfl
    unfold accepts at haccepts
    obtain ⟨offset, hoffset, haccepts⟩ := bind_eq_ok.mp haccepts
    rw [hspans.lo_eq] at hoffset
    obtain rfl : token.1 = offset := by
      have := (Ensures.minus (Nat.zero_le token.1)).elim hoffset
      omega
    rw [hsign] at hfirst
    simp only [Dialect.accepts, htest, CandidateTest.holds, hspans.scope_eq, hfirst] at haccepts
    revert haccepts
    decide +kernel
  rw [Bool.eq_false_iff]
  intro hopens
  obtain ⟨b, hb, hopens⟩ := Text.byteIs_iff.mp hopens
  rw [if_neg hfirst'] at hfrom
  simp only [Layout.opensComment, Bool.or_eq_true, beq_iff_eq] at hopens
  rcases hopens with rfl | rfl
  · have hname := hname i '/' (by omega) h2 (Text.charAt_of_ascii hb (by decide))
    rw [hslash, Bool.or_true] at hname
    cases hname
  · have hname := hname i '#' (by omega) h2 (Text.charAt_of_ascii hb (by decide))
    rw [hhash, Bool.or_true] at hname
    cases hname

end Frame

/-! ### Programs that spare literals -/

namespace Pass

variable {f : Frame} {l : Layout} {condition : Condition} {c d : Buffer} {style : Style}

/-- Sweeping the document for tokens paints what the sweep accepts.

**Proof sketch.** The range in which tokens are looked for is the whole document. What holds of every
token that a step accepts holds of all that a sweep finds. -/
lemma paintTokens_eq_ok (hspans : f.Spans) {P : Nat × Nat → Prop}
    {step : Nat → Nat → Unit → Checked (Sweep.Move Unit (Nat × Nat))}
    (htokens : ∀ pos token next, step f.hi pos () = .ok (.go (.accepted token) next ()) → P token)
    (hd : paintTokens (.document f.text) f step style c = .ok d) :
    ∃ tokens : List (Nat × Nat), (∀ token ∈ tokens, P token) ∧
      d = tokens.foldl (fun c token => (Scene.document f.text).paint c token.1 token.2 style) c ∧
      d.text = c.text := by
  unfold paintTokens at hd
  rw [hspans.tokenRange_document] at hd
  obtain ⟨harvest, hharvest, hd⟩ := bind_eq_ok.mp hd
  cases hd
  rw [← Array.foldl_toList]
  refine ⟨harvest.items.toList, fun token htoken => ?_, rfl,
    Scene.text_foldl (fun canvas token => Scene.text_paint _ _ _ _ _) _ _⟩
  refine Sweep.forall_mem_collect (J := fun _ _ => True) (P := P) ?_ trivial hharvest token
    (Array.mem_toList_iff.mp htoken)
  intro pos u verdict next u' _ hgo
  refine ⟨trivial, fun token htoken => ?_⟩
  subst htoken
  rw [← hspans.hi_eq] at hgo
  exact htokens pos token next hgo

/-- Sweeping the document for tokens outside comments, and outside strings too if they are code, keeps
what the canvas shows. -/
lemma paintTokens_shows (hspans : f.Spans) (h : l.Shows f.text c) (hc : c.text = f.text)
    (hstyle : style ≠ .comment ∧ style ≠ .string)
    {step : Nat → Nat → Unit → Checked (Sweep.Move Unit (Nat × Nat))}
    (htokens : ∀ pos token next, step f.hi pos () = .ok (.go (.accepted token) next ()) →
      ∀ i, token.1 ≤ i → i < token.2 →
        ¬ l.InComment i ∧ (style.marksCode = true → ¬ l.InString i))
    (hd : paintTokens (.document f.text) f step style c = .ok d) :
    l.Shows f.text d ∧ d.text = f.text := by
  obtain ⟨tokens, hall, rfl, htext⟩ := paintTokens_eq_ok hspans htokens hd
  exact ⟨h.paint hc hstyle hall, htext.trans hc⟩

/-- The same for tokens that start with a mark, if their bytes open nothing.

**Proof sketch.** The token starts outside literals and no literal starts at one of its bytes, so it
lies outside. -/
lemma paintOccurrences_shows (hspans : f.Spans) (hl : l.Coded f.text) (h : l.Shows f.text c)
    (hc : c.text = f.text) (hstyle : style ≠ .comment ∧ style ≠ .string) {needle : Mark}
    {tokenEnd : Frame.TokenEnd}
    (hspares : ∀ start tokenStop, f.text.hasAt start needle = true →
      tokenEnd start = .ok (some tokenStop) → ∀ i, start ≤ i → i < tokenStop →
        f.text.byteIs Layout.opensNothing i = true)
    (hd : paintOccurrences (.document f.text) f l condition needle tokenEnd style c = .ok d) :
    l.Shows f.text d ∧ d.text = f.text := by
  unfold paintOccurrences at hd
  split at hd
  · cases hd
    exact ⟨h, hc⟩
  · refine paintTokens_shows hspans h hc hstyle (fun pos token next hgo i h1 h2 => ?_) hd
    obtain ⟨hat, hend, hout⟩ := Frame.tokenStep_accepted hgo
    have hstart : ¬ (l.InString token.1 ∨ l.InComment token.1) := by
      rw [← hl.inLiteral_iff, hout]
      exact Bool.false_ne_true
    have hclear := hl.not_literal_of_start hstart (hspares token.1 token.2 hat hend) h1 h2
    exact ⟨fun hcomment => hclear (.inr hcomment), fun _ hstring => hclear (.inl hstring)⟩

end Pass

namespace Primitive

/-- Whether a primitive paints tokens that spare literals: code without bytes that open a literal, or
variables whose names end before a comment can start. -/
def sparesLiterals (dialect : Dialect) (condition : Condition) : Primitive → Bool
  | .setCondition _ => true
  | .keywords words _ _ style => style.marksCode && words.all fun w => w.all Layout.opensNothing
  | .extensibleKeyword base suffixes style =>
    style.marksCode && base.all Layout.opensNothing && suffixes.all fun m => m.all Layout.opensNothing
  | .signedVariable sign ends _ =>
    dialect.tests.lookup condition == some .nameFollows && sign.utf8Size == 1 &&
      ends.contains '/' && ends.contains '#'
  | .marks _ style => style.marksCode
  | _ => false

/-- Whether all primitives of a program paint tokens that spare literals, each under the condition that
is due. -/
def sparesAll (dialect : Dialect) : Condition → List Primitive → Bool
  | _, [] => true
  | condition, primitive :: rest =>
    primitive.sparesLiterals dialect condition &&
      match primitive.tokenCondition condition with
      | some next => sparesAll dialect next rest
      | none => false

end Primitive

/-- A pass that has mapped a layout and paints over it what spares its literals. -/
structure Pass.Showing (f : Frame) (l : Layout) (due : Condition) (p : Pass) : Prop where
  text : p.canvas.text = f.text
  layout : p.layout = l
  condition : p.condition = due
  quiet : p.repair = none
  shows : l.Shows f.text p.canvas

namespace Primitive

variable {f : Frame} {l : Layout} {condition next : Condition} {p q : Pass}

/-- Code is neither a comment nor a string. -/
lemma marksCode_ne {style : Style} (h : style.marksCode = true) :
    style ≠ .comment ∧ style ≠ .string := by
  cases style <;> simp_all [Style.marksCode]

/-- Painting tokens that spare literals keeps what the canvas shows.

**Proof sketch.** By cases on the primitive. Words start outside literals and have no byte that opens
one. Variables may lie in strings, but they reach into no comment (`Frame.variableStep_spares`). -/
theorem run_shows (hspans : f.Spans) (hl : l.Coded f.text)
    {primitive : Primitive} (hspares : primitive.sparesLiterals f.dialect condition = true)
    (hnext : primitive.tokenCondition condition = some next) (hp : p.Showing f l condition)
    (h : run (.document f.text) primitive f p = .ok q) : q.Showing f l next := by
  obtain ⟨htext, rfl, rfl, hquiet, hshows⟩ := hp
  cases primitive with
  | setCondition condition =>
    simp only [run] at h
    cases h
    cases hnext
    exact ⟨htext, rfl, rfl, hquiet, hshows⟩
  | keywords words wholeWord notAfter style =>
    simp only [run] at h
    simp only [sparesLiterals, Bool.and_eq_true, List.all_eq_true] at hspares
    obtain ⟨d, hd, h⟩ := bind_eq_ok.mp h
    cases h
    cases hnext
    obtain ⟨hcode, hwords⟩ := hspares
    obtain ⟨hshows', htext'⟩ := foldlM_induction
      (I := fun c : Buffer => p.layout.Shows f.text c ∧ c.text = f.text)
      (fun word hword c c' hc hc' => Pass.paintOccurrences_shows hspans hl hc.1 hc.2
        (marksCode_ne hcode) (fun start tokenStop hat hend i h1 h2 =>
          Frame.wordEnd_spares (List.all_eq_true.mpr (hwords word hword)) hat hend h1 h2) hc')
      ⟨hshows, htext⟩ hd
    exact ⟨htext', rfl, rfl, hquiet, hshows'⟩
  | extensibleKeyword base suffixes style =>
    simp only [run] at h
    simp only [sparesLiterals, Bool.and_eq_true, List.all_eq_true] at hspares
    obtain ⟨⟨hcode, hbase⟩, hsuffixes⟩ := hspares
    obtain ⟨d, hd, h⟩ := bind_eq_ok.mp h
    cases h
    cases hnext
    obtain ⟨hshows', htext'⟩ := Pass.paintOccurrences_shows hspans hl hshows htext
      (marksCode_ne hcode) (fun start tokenStop hat hend i h1 h2 =>
        Frame.extendedEnd_spares (List.all_eq_true.mpr hbase)
          (fun m hm => List.all_eq_true.mpr (hsuffixes m hm)) hat hend h1 h2) hd
    exact ⟨htext', rfl, rfl, hquiet, hshows'⟩
  | signedVariable sign ends exceptions =>
    simp only [run] at h
    simp only [sparesLiterals, Bool.and_eq_true, beq_iff_eq] at hspares
    obtain ⟨⟨⟨htest, hsign⟩, hslash⟩, hhash⟩ := hspares
    obtain ⟨d, hd, h⟩ := bind_eq_ok.mp h
    cases h
    cases hnext
    obtain ⟨hshows', htext'⟩ := Pass.paintTokens_shows hspans hshows htext
      ⟨by decide, by decide⟩ (fun pos token next hgo i h1 h2 => by
        have hstart : ¬ p.layout.InComment token.1 := by
          rw [← hl.inComment_iff, (Frame.variableStep_accepted hgo).2.1]
          exact Bool.false_ne_true
        -- a comment that the name reached into would have to start in the name
        have hbytes : ∀ i, token.1 < i → i < token.2 → f.text.byteIs Layout.opensComment i = false :=
          fun i h1 h2 => Frame.variableStep_spares hspans htest hsign hslash hhash hgo h1 h2
        exact ⟨hl.not_comment_of_start hstart hbytes h1 h2, fun hcode => by cases hcode⟩) hd
    exact ⟨htext', rfl, rfl, hquiet, hshows'⟩
  | marks bytes style =>
    simp only [run] at h
    obtain ⟨d, hd, h⟩ := bind_eq_ok.mp h
    cases h
    cases hnext
    obtain ⟨hshows', htext'⟩ := Pass.paintTokens_shows hspans hshows htext (marksCode_ne hspares)
      (fun pos token next hgo i h1 h2 => by
        obtain ⟨-, hout, hstop⟩ := Frame.markStep_accepted hgo
        obtain rfl : i = token.1 := by omega
        -- the byte was accepted because it lies in no literal
        have hclear : ¬ (p.layout.InString token.1 ∨ p.layout.InComment token.1) := by
          rw [← hl.inLiteral_iff, hout]
          exact Bool.false_ne_true
        exact ⟨fun hcomment => hclear (.inr hcomment), fun _ hstring => hclear (.inl hstring)⟩) hd
    exact ⟨htext', rfl, rfl, hquiet, hshows'⟩
  | _ => cases hnext

/-- **What the rest of a program keeps.** A canvas that shows a layout goes on showing it while tokens
are painted that spare literals.

**Proof sketch.** Induction on the program, with the condition that is due. -/
theorem runAll_shows (hspans : f.Spans) (hl : l.Coded f.text) {program : List Primitive}
    (hspares : sparesAll f.dialect condition program = true) (hp : p.Showing f l condition)
    (h : runAll (.document f.text) program f p = .ok q) : q.layout = l ∧ l.Shows f.text q.canvas := by
  induction program generalizing p condition with
  | nil =>
    simp only [runAll] at h
    cases h
    exact ⟨hp.layout, hp.shows⟩
  | cons primitive rest ih =>
    simp only [sparesAll, Bool.and_eq_true] at hspares
    cases hnext : primitive.tokenCondition condition with
    | none => simp [hnext] at hspares
    | some next =>
      simp only [hnext] at hspares
      rw [runAll_cons hp.quiet] at h
      obtain ⟨p₁, hp₁, h⟩ := bind_eq_ok.mp h
      exact ih hspares.2 (run_shows hspans hl hspares.1 hnext hp hp₁) h

end Primitive

/-! ### Brackets and braces -/

namespace Frame

variable {f : Frame} {l : Layout} {bytes : List UInt8} {last pos next : Nat}
  {harvest : Sweep.Harvest (Nat × Nat)}

/-- All of some bytes in front of an offset were found, unless they lie in literals. -/
def MarksFound (f : Frame) (l : Layout) (bytes : List UInt8) (last : Nat)
    (found : Array (Nat × Nat)) : Prop :=
  ∀ i, i < last → f.text.byteIs bytes.contains i = true → l.inLiteral i = false → (i, i + 1) ∈ found

/-- One step of the scan for bytes.

**Proof sketch.** None of the bytes stands between the offset and the one that the search finds. The
step adds that byte, or it lies in a literal, and it goes on right behind it. -/
lemma MarksFound.go (h : f.MarksFound l bytes pos harvest.items)
    {verdict : Sweep.Verdict (Nat × Nat)}
    (hgo : f.markStep l bytes last pos () = .ok (.go verdict next ())) :
    pos < next ∧ f.MarksFound l bytes next (harvest.add verdict).items := by
  obtain ⟨_, -, hgo⟩ := bind_eq_ok.mp hgo
  split at hgo
  · cases hgo
  · rename_i start hstart
    obtain ⟨hle, -, -, hbefore⟩ := Text.findByte_eq_some_iff.mp hstart
    have hpassed : f.MarksFound l bytes start harvest.items := by
      intro i hi hbyte hout
      rcases Nat.lt_or_ge i pos with hlt | hge
      · exact h i hlt hbyte hout
      · rw [hbefore i hge hi] at hbyte
        cases hbyte
    split at hgo
    · rename_i hin
      cases hgo
      refine ⟨by omega, fun i hi hbyte hout => ?_⟩
      rcases Nat.lt_succ_iff_lt_or_eq.mp hi with hlt | rfl
      · exact hpassed i hlt hbyte hout
      · rw [hin] at hout
        cases hout
    · cases hgo
      refine ⟨by omega, fun i hi hbyte hout => ?_⟩
      rcases Nat.lt_succ_iff_lt_or_eq.mp hi with hlt | rfl
      · exact Array.mem_push_of_mem _ (hpassed i hlt hbyte hout)
      · exact Array.mem_push_self

/-- Where the scan for bytes stops, none is left.

**Proof sketch.** The scan stops only if its search has found nothing. -/
lemma MarksFound.finish (h : f.MarksFound l bytes pos harvest.items)
    (hend : f.markStep l bytes last pos () = .ok .stop) : f.MarksFound l bytes last harvest.items := by
  intro i hi hbyte hout
  rcases Nat.lt_or_ge i pos with hlt | hge
  · exact h i hlt hbyte hout
  · obtain ⟨_, -, hend⟩ := bind_eq_ok.mp hend
    split at hend
    · rename_i hnone
      rw [Text.findByte_eq_none_iff.mp hnone i hge hi] at hbyte
      cases hbyte
    · split at hend <;> cases hend

/-- The scan finds all of some bytes outside literals, and no other byte.

**Proof sketch.** `MarksFound` holds at the start and along the sweep by `MarksFound.go`. That no
other byte is found is a property of each step. -/
lemma marks_found (h : Sweep.collect (f.markStep l bytes last) last 0 () = .ok harvest) :
    f.MarksFound l bytes last harvest.items ∧ ∀ token ∈ harvest.items,
      f.text.byteIs bytes.contains token.1 = true ∧ l.inLiteral token.1 = false ∧
        token.2 = token.1 + 1 := by
  constructor
  · exact Sweep.collect_induction (I := fun pos _ h => f.MarksFound l bytes pos h.items)
      (fun _ _ _ _ _ _ hfound hgo _ => hfound.go hgo) (fun _ _ _ hfound hend => hfound.finish hend)
      (fun i hi => absurd hi (Nat.not_lt_zero i)) h
  · refine Sweep.forall_mem_collect (J := fun _ _ => True) (fun pos u verdict next u' _ hgo => ?_)
      trivial h
    refine ⟨trivial, fun token htoken => ?_⟩
    subst htoken
    exact markStep_accepted hgo

end Frame

namespace Primitive

variable {f : Frame} {l : Layout} {condition next : Condition} {p q : Pass}

/-- Painting some bytes reaches all of them outside literals, and no other byte.

**Proof sketch.** `styles_foldl_paint` says that the style shows where one of the tokens lies. By
`marks_found` these are the bytes looked for outside literals. -/
lemma run_marks (hspans : f.Spans) (ht : p.canvas.text = f.text) {bytes : List UInt8} {style : Style}
    (h : run (.document f.text) (.marks bytes style) f p = .ok q) :
    q.canvas.text = f.text ∧ ∀ i, i < f.text.size → q.canvas.styles[i]? =
      if f.text.byteIs bytes.contains i = true ∧ p.layout.inLiteral i = false then some style
      else p.canvas.styles[i]? := by
  simp only [run] at h
  obtain ⟨d, hd, h⟩ := bind_eq_ok.mp h
  cases h
  unfold Pass.paintTokens at hd
  rw [hspans.tokenRange_document] at hd
  obtain ⟨harvest, hharvest, hd⟩ := bind_eq_ok.mp hd
  cases hd
  obtain ⟨hall, hsingle⟩ := Frame.marks_found hharvest
  rw [← Array.foldl_toList]
  refine ⟨by rw [Scene.text_foldl (fun canvas token => Scene.text_paint _ _ _ _ _), ht],
    fun i hi => ?_⟩
  rw [Scene.styles_foldl_paint (fun token => token) ht _ _ hi]
  refine if_congr ?_ rfl rfl
  rw [List.any_eq_true]
  constructor
  · rintro ⟨token, htoken, hin⟩
    obtain ⟨hbyte, hout, hstop⟩ := hsingle token (Array.mem_toList_iff.mp htoken)
    simp only [Bool.and_eq_true, decide_eq_true_eq] at hin
    obtain rfl : i = token.1 := by omega
    exact ⟨hbyte, hout⟩
  · rintro ⟨hbyte, hout⟩
    exact ⟨(i, i + 1), Array.mem_toList_iff.mpr (hall i hi hbyte hout), by simp⟩

/-- Whether a primitive paints single bytes other than the given ones. -/
def sparesBytes (bytes : List UInt8) : Primitive → Bool
  | .marks others _ => others.all fun b => !bytes.contains b
  | _ => false

/-- Whether only other bytes are painted behind the single bytes that a program paints. -/
def marksLast : List Primitive → Bool
  | [] => true
  | .marks bytes _ :: rest => rest.all (sparesBytes bytes) && marksLast rest
  | _ :: rest => marksLast rest

/-- Painting other bytes leaves the style of a byte alone.

**Proof sketch.** Induction on the program. Each primitive paints other single bytes. -/
lemma runAll_sparesBytes (hspans : f.Spans) {bytes : List UInt8} {program : List Primitive}
    (hspares : program.all (sparesBytes bytes) = true) (ht : p.canvas.text = f.text)
    (h : runAll (.document f.text) program f p = .ok q) {i : Nat}
    (hi : f.text.byteIs bytes.contains i = true) : q.canvas.styles[i]? = p.canvas.styles[i]? := by
  induction program generalizing p with
  | nil =>
    simp only [runAll] at h
    cases h
    rfl
  | cons primitive rest ih =>
    simp only [List.all_cons, Bool.and_eq_true] at hspares
    cases primitive with
    | marks others style =>
      rcases eq_or_of_runAll_cons h with rfl | ⟨p₁, hp₁, h⟩
      · rfl
      · obtain ⟨ht₁, hstyles⟩ := run_marks hspans ht hp₁
        rw [ih hspares.2 ht₁ h, hstyles i (Text.lt_size_of_byteIs hi), if_neg]
        rintro ⟨hother, -⟩
        obtain ⟨b, hb, hin⟩ := Text.byteIs_iff.mp hi
        simp only [sparesBytes, List.all_eq_true, Bool.not_eq_true'] at hspares
        obtain ⟨b', hb', hin'⟩ := Text.byteIs_iff.mp hother
        obtain rfl := Option.some.inj (hb.symm.trans hb')
        rw [hspares.1 b (List.contains_iff_mem.mp hin')] at hin
        cases hin
    | _ => cases hspares.1

/-- **Brackets stay brackets.** The single bytes that a program paints, outside literals, keep their
style to its end.

**Proof sketch.** Induction on the program. Where it paints the bytes in question, all of them
outside literals get the style (`run_marks`), and behind that only other bytes are painted
(`runAll_sparesBytes`). -/
theorem runAll_marks (hspans : f.Spans) (hl : l.Coded f.text) {program : List Primitive}
    (hspares : sparesAll f.dialect condition program = true) (hlast : marksLast program = true)
    (hp : p.Showing f l condition) (h : runAll (.document f.text) program f p = .ok q)
    {bytes : List UInt8} {style : Style} (hmem : .marks bytes style ∈ program) {i : Nat}
    (hi : f.text.byteIs bytes.contains i = true) (hout : ¬ (l.InString i ∨ l.InComment i)) :
    q.canvas.styles[i]? = some style := by
  induction program generalizing p condition with
  | nil => cases hmem
  | cons primitive rest ih =>
    simp only [sparesAll, Bool.and_eq_true] at hspares
    cases hnext : primitive.tokenCondition condition with
    | none => simp [hnext] at hspares
    | some next =>
      simp only [hnext] at hspares
      rw [runAll_cons hp.quiet] at h
      obtain ⟨p₁, hp₁, hrest⟩ := bind_eq_ok.mp h
      rcases List.mem_cons.mp hmem with heq | hmem
      · subst heq
        simp only [marksLast, Bool.and_eq_true] at hlast
        obtain ⟨ht₁, hstyles⟩ := run_marks hspans hp.text hp₁
        have hliteral : p.layout.inLiteral i = false := by
          rw [hp.layout, ← Bool.not_eq_true, hl.inLiteral_iff]
          exact hout
        rw [runAll_sparesBytes hspans hlast.1 ht₁ hrest hi, hstyles i (Text.lt_size_of_byteIs hi),
          if_pos ⟨hi, hliteral⟩]
      · refine ih hspares.2 ?_ (run_shows hspans hl hspares.1 hnext hp hp₁) hrest hmem
        cases primitive <;> simp_all [marksLast]

/-! ### Full passes -/

/-- The bytes that a program paints are painted once the literals are mapped.

**Proof sketch.** Induction on the program. The part that maps literals has no single bytes, so they
are in the rest. -/
lemma marks_mem_mapping {bytes : List UInt8} {style : Style} {program : List Primitive}
    (h : .marks bytes style ∈ program) (stage : Stage) :
    .marks bytes style ∈ (mapping stage program).2 := by
  induction program generalizing stage with
  | nil => cases h
  | cons primitive rest ih =>
    unfold mapping
    split
    · rename_i next hnext
      rcases List.mem_cons.mp h with heq | hrest
      · subst heq
        cases hnext
      · exact ih hrest next
    · exact h

/-- Whether a program maps literals that start plainly, other than quote operators, and then paints
tokens that spare them, single bytes last. -/
def showsLiterals (dialect : Dialect) (program : List Primitive) : Bool :=
  isPlain dialect program && !(mapping .start program).1.operators &&
    program.all (opensPlainly dialect) &&
    sparesAll dialect (mapping .start program).1.due (mapping .start program).2 &&
    marksLast (mapping .start program).2

/-- A full pass of such a program maps plain literals first, and then it paints tokens over them.

**Proof sketch.** A full run of a plain program splits into the mapping of its literals and the rest,
which maps nothing. A blank layout opens nothing, and mapping keeps where literals may start. -/
lemma FullRun.coded {program : List Primitive} {opened : Bool} (h : FullRun program opened f p q)
    (hshows : showsLiterals f.dialect program = true) :
    q.layout.Coded f.text ∧ ∃ p' : Pass, p'.Mapped f p.canvas (mapping .start program).1 ∧
      p'.layout = q.layout ∧ runAll (.document f.text) (mapping .start program).2 f p' = .ok q := by
  simp only [showsLiterals, Bool.and_eq_true, Bool.not_eq_true'] at hshows
  obtain ⟨⟨⟨⟨hplain, hoperators⟩, hopens⟩, -⟩, -⟩ := hshows
  obtain ⟨opened', p', -, hmapped, hlayout, hrun⟩ := h.exists_mapped hplain
  have hblank : p.layout.Opens f.text := by
    have hnone := (Layout.forall_sets (P := fun _ set => set.intervals = #[])).mp
      h.blank.intervals_eq
    obtain ⟨hquotes, hlines, hblocks, hheredocs, -⟩ := hnone
    exact ⟨fun iv hiv => by simp [hquotes] at hiv, fun iv hiv => by simp [hlines] at hiv,
      fun iv hiv => by simp [hblocks] at hiv, fun iv hiv => by simp [hheredocs] at hiv⟩
  have hsettled := hmapped.settled
  rw [h.spans.lo_eq, h.spans.hi_eq] at hsettled
  exact ⟨⟨hlayout ▸ hsettled, hlayout ▸ hmapped.noOperators (.inr hoperators),
    runAll_opens h.wellFormed h.plain h.sound hopens hblank h.run⟩, p', hmapped, hlayout.symm, hrun⟩

/-- What a full pass of such a program leaves.

**Proof sketch.** Once the literals are mapped the canvas has the shades of the layout, so it shows
it (`Layout.Coded.shows`). The rest of the program spares the literals. -/
theorem FullRun.shows {program : List Primitive} {opened : Bool} (h : FullRun program opened f p q)
    (hshows : showsLiterals f.dialect program = true) :
    q.layout.Shows f.text q.canvas ∧
      ∀ (bytes : List UInt8) (style : Style) (i : Nat), .marks bytes style ∈ program →
        f.text.byteIs bytes.contains i = true → ¬ (q.layout.InString i ∨ q.layout.InComment i) →
        q.canvas.styles[i]? = some style := by
  obtain ⟨hcoded, p', hmapped, hlayout, hrun⟩ := h.coded hshows
  simp only [showsLiterals, Bool.and_eq_true, Bool.not_eq_true'] at hshows
  obtain ⟨⟨-, hspares⟩, hlast⟩ := hshows
  have hshowing : p'.Showing f q.layout (mapping .start program).1.due :=
    ⟨hmapped.text, hlayout, hmapped.condition, hmapped.quiet,
      hcoded.shows (hlayout ▸ hmapped.shaded_of_plain h.plainCanvas)⟩
  exact ⟨(runAll_shows h.spans hcoded hspares hshowing hrun).2, fun bytes style i hmem hi hout =>
    runAll_marks h.spans hcoded hspares hlast hshowing hrun (marks_mem_mapping hmem _) hi hout⟩

end Primitive

namespace Painter

/-- **Final styles and literals tell the same story.** After a full pass of Java, C#, CSS, JavaScript,
Python, R or PHP code over any valid text, whatever the painter has seen before, a byte is styled as a
comment if and only if it lies in a line comment or in a block comment; what is styled as a keyword, a
bracket or a brace lies in no string, heredoc or comment; where the language paints brackets or braces,
each of them outside all literals is styled so; and what is styled as a string lies in a string or in a
heredoc. The pass succeeds from every painter whose history is in order.

**Proof sketch.** Once the literals are mapped the canvas shows them, and each token that is painted
after that spares them. Brackets and braces come last, so nothing is painted over them. -/
theorem full_styles {profile : Profile}
    (hprofile : profile ∈ [Profile.java, Profile.csharp, Profile.css, Profile.javascript,
      Profile.python, Profile.r, Profile.phpCode])
    {doc : Buffer} (hdoc : doc.text.Valid) :
    (∀ p : Painter, p.layout.HistoryOrdered → ∃ r, p.full profile doc = .ok r) ∧
      ∀ (p p' : Painter) (doc' : Buffer), p.full profile doc = .ok (p', doc') →
        doc'.text = doc.text ∧ ∀ i, i < doc.text.size →
          (doc'.styles[i]? = some .comment ↔ p'.layout.InComment i) ∧
          (∀ style ∈ [Style.keyword, .bracket, .brace], doc'.styles[i]? = some style →
            ¬ (p'.layout.InString i ∨ p'.layout.InComment i)) ∧
          (Primitive.brackets ∈ profile.program → doc.text.byteIs (mark "()[]").contains i = true →
            ¬ (p'.layout.InString i ∨ p'.layout.InComment i) →
            doc'.styles[i]? = some .bracket) ∧
          (Primitive.braces ∈ profile.program →
            doc.text.byteIs (mark "\x7b\x7d").contains i = true →
            ¬ (p'.layout.InString i ∨ p'.layout.InComment i) → doc'.styles[i]? = some .brace) ∧
          (doc'.styles[i]? = some .string → p'.layout.InString i) := by
  have hshows : [Profile.java, Profile.csharp, Profile.css, Profile.javascript, Profile.python,
      Profile.r, Profile.phpCode].all (fun p => Primitive.showsLiterals p.dialect p.program) =
        true := by
    decide +kernel
  have hsound : profile.Sound := by
    refine Profile.sound_of_mem_builtIn ?_
    simp only [Profile.builtIn, List.mem_cons, List.not_mem_nil, or_false] at hprofile ⊢
    tauto
  refine ⟨fun p hp => ?_, fun p p' doc' hfull => ?_⟩
  · obtain ⟨r, hr, -⟩ := full_ensures hsound hdoc hp
    exact ⟨r, hr⟩
  · -- a full pass paints as the pass of a new painter
    obtain ⟨fresh, hnew, hlayout, -⟩ := full_fresh hsound hdoc hfull
    obtain ⟨pass, hpass, hfresh⟩ := exists_freshPass hsound hdoc
    obtain ⟨rfl, rfl⟩ := Prod.mk.inj (Except.ok.inj (hnew.symm.trans hfresh))
    have hrun := Profile.fullRun hsound hdoc hpass
    obtain ⟨hstyles, hmarks⟩ :=
      hrun.shows (List.all_eq_true.mp hshows profile hprofile)
    refine ⟨Profile.text_freshPass hpass, fun i hi => ?_⟩
    rw [hlayout]
    refine ⟨hstyles.comment i hi, fun style hstyle => hstyles.code i style hi ?_,
      fun hmem => hmarks _ _ i hmem, fun hmem => hmarks _ _ i hmem, hstyles.string i hi⟩
    simp only [List.mem_cons, List.not_mem_nil, or_false] at hstyle
    rcases hstyle with rfl | rfl | rfl <;> rfl

/-- A keyword, a word in the body of a heredoc, and a bracket in a comment and behind it. -/
theorem full_styles_phpCode :
    ∃ p doc', Painter.new.full .phpCode
        (Buffer.new (Text.ofString "echo <<<X\nif\nX;\n# [\n[")) = .ok (p, doc') ∧
      doc'.styles[0]? = some .keyword ∧ ¬ (p.layout.InString 0 ∨ p.layout.InComment 0) ∧
      doc'.styles[10]? = some .string ∧ p.layout.InString 10 ∧
      doc'.styles[18]? = some .comment ∧ p.layout.InComment 18 ∧
      doc'.styles[20]? = some .bracket ∧ ¬ (p.layout.InString 20 ∨ p.layout.InComment 20) := by
  have hdoc : (Buffer.new (Text.ofString "echo <<<X\nif\nX;\n# [\n[")).text.Valid :=
    Text.valid_ofString _
  have hrun : (do
      let r ← Painter.new.full .phpCode (Buffer.new (Text.ofString "echo <<<X\nif\nX;\n# [\n["))
      demand (([0, 10, 18, 20].map fun i => r.2.styles[i]?) =
        [some Style.keyword, some .string, some .comment, some .bracket]) .outOfRange) = .ok () := by
    decide +kernel
  obtain ⟨⟨p, doc'⟩, hfull, hrun⟩ := bind_eq_ok.mp hrun
  have hstyles := of_decide_eq_true (demand_eq_ok_iff.mp hrun)
  simp only [List.map_cons, List.map_nil, List.cons.injEq, and_true] at hstyles
  obtain ⟨h0, h10, h18, h20⟩ := hstyles
  have hprofile : Profile.phpCode ∈ [Profile.java, Profile.csharp, Profile.css, Profile.javascript,
      Profile.python, Profile.r, Profile.phpCode] := by
    simp
  obtain ⟨-, htell⟩ := (full_styles hprofile hdoc).2 Painter.new p doc' hfull
  have hsize : (Buffer.new (Text.ofString "echo <<<X\nif\nX;\n# [\n[")).size = 21 := by decide +kernel
  have htell (i : Nat) (hi : i < 21) := htell i (Nat.lt_of_lt_of_eq hi hsize.symm)
  exact ⟨p, doc', hfull, h0, (htell 0 (by decide)).2.1 _ (by simp) h0,
    h10, (htell 10 (by decide)).2.2.2.2 h10, h18, (htell 18 (by decide)).1.mp h18,
    h20, (htell 20 (by decide)).2.1 _ (by simp) h20⟩

end Painter

end LexPaint
