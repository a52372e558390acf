import LexPaint.Proofs.FinalStyles
import LexPaint.Proofs.RequestSteps
import LexPaint.Proofs.StyleRuns

set_option relaxedAutoImplicit false
set_option autoImplicit false

/-!
# Keywords are whole words

The words of a language are looked for one after another, each in a sweep of its own, and what is found
is painted over what other words have painted. Two occurrences never touch, though: a word counts only
where no identifier goes on at either end of it, and all its bytes belong to identifiers. So in the end
each maximal range in the style of keywords is one occurrence of one word.

## Main definitions

* `Frame.IsToken`: an occurrence of a mark outside literals at which a token starts.
* `Text.IsWholeWord`: an occurrence of a word that no identifier goes beyond.

## Main results

* `Frame.tokens_found`: the sweep for a mark finds all tokens that start with it.
* `Primitive.run_keywords`: where words are painted.
* `Highlighter.keyword_runs`: the runs of keywords of a document.
-/

namespace LexPaint

/-! ### Words in a text -/

/-- ASCII letters, digits and the underscore. -/
def isAsciiWordByte (b : UInt8) : Bool :=
  b < 0x80 && Unicode.isWordChar (Char.ofUInt8 b)

/-- A mark that is an identifier or a part of one. -/
def Mark.IsWord (m : Mark) : Prop :=
  m.IsPlain ∧ m.all isAsciiWordByte = true

instance (m : Mark) : Decidable m.IsWord :=
  inferInstanceAs (Decidable (_ ∧ _))

namespace Text

variable {t : Text} {i start : Nat} {word : Mark} {notAfter : List Char}

/-- A byte of a word is a word character. -/
lemma charAt_of_wordByte (h : t.byteIs isAsciiWordByte i = true) :
    ∃ c, t.charAt i = some c ∧ Unicode.isWordChar c = true := by
  obtain ⟨b, hb, hword⟩ := byteIs_iff.mp h
  rw [isAsciiWordByte, Bool.and_eq_true, decide_eq_true_eq] at hword
  exact ⟨_, charAt_of_ascii hb hword.1, hword.2⟩

/-- Behind a byte of a word the preceding character is a word character. -/
lemma charBefore_of_wordByte (ht : t.Valid) (h : t.byteIs isAsciiWordByte i = true) :
    ∃ c, t.charBefore (i + 1) = some c ∧ Unicode.isWordChar c = true := by
  obtain ⟨c, hc, hword⟩ := charAt_of_wordByte h
  obtain ⟨b, hb, hascii⟩ := byteIs_iff.mp h
  rw [isAsciiWordByte, Bool.and_eq_true, decide_eq_true_eq] at hascii
  refine ⟨c, ?_, hword⟩
  rw [charBefore, if_neg (by simp [isBoundary_succ_of_ascii ht hb hascii.1]), prevBoundary,
    if_pos (isBoundary_of_charAt hc), hc]

/-- The word occurs at an offset, neither the character in front of it nor the one behind it is a word
character, and the one in front is none of some others. -/
structure IsWholeWord (t : Text) (notAfter : List Char) (word : Mark) (start : Nat) : Prop where
  at_start : t.hasAt start word = true
  before : ∀ c, t.charBefore start = some c → Unicode.isWordChar c = false ∧ c ∉ notAfter
  behind : ∀ c, t.charAt (start + word.length) = some c → Unicode.isWordChar c = false

/-- Directly in front of a whole word no identifier goes on. -/
lemma IsWholeWord.not_wordByte_before (h : t.IsWholeWord notAfter word start) (ht : t.Valid)
    (hi : i + 1 = start) : t.byteIs isAsciiWordByte i = false := by
  rw [Bool.eq_false_iff]
  intro hbyte
  obtain ⟨c, hc, hchar⟩ := charBefore_of_wordByte ht hbyte
  rw [hi] at hc
  exact Bool.false_ne_true ((h.before c hc).1.symm.trans hchar)

/-- Directly behind a whole word no identifier goes on. -/
lemma IsWholeWord.not_wordByte_behind (h : t.IsWholeWord notAfter word start) :
    t.byteIs isAsciiWordByte (start + word.length) = false := by
  rw [Bool.eq_false_iff]
  intro hbyte
  obtain ⟨c, hc, hchar⟩ := charAt_of_wordByte hbyte
  exact Bool.false_ne_true ((h.behind c hc).symm.trans hchar)

end Text

/-! ### The sweep for a mark -/

namespace Frame

variable {f : Frame} {l : Layout} {condition : Condition} {needle : Mark} {tokenEnd : TokenEnd}
variable {last pos next : Nat} {harvest : Sweep.Harvest (Nat × Nat)}

/-- An occurrence of a mark outside literals at which a token starts, with the bounds of the token. -/
def IsToken (f : Frame) (l : Layout) (needle : Mark) (tokenEnd : TokenEnd) (token : Nat × Nat) : Prop :=
  f.text.hasAt token.1 needle = true ∧ tokenEnd token.1 = .ok (some token.2) ∧
    l.inLiteral token.1 = false

/-- All tokens in front of an offset were found. -/
def TokensFound (f : Frame) (l : Layout) (needle : Mark) (tokenEnd : TokenEnd) (last : Nat)
    (found : Array (Nat × Nat)) : Prop :=
  ∀ token, f.IsToken l needle tokenEnd token → token.1 < last → token ∈ found

/-- A sweep that goes on to where no occurrence lies before misses no token. -/
lemma TokensFound.skip {start : Nat} {found : Array (Nat × Nat)}
    (h : f.TokensFound l needle tokenEnd pos found)
    (hnone : ∀ i, pos ≤ i → i < start → f.text.hasAt i needle = false) :
    f.TokensFound l needle tokenEnd start found := by
  intro token htoken hlt
  rcases Nat.lt_or_ge token.1 pos with hbefore | hge
  · exact h token htoken hbefore
  · exact absurd htoken.1 (by simp [hnone _ hge hlt])

/-- From an occurrence of a mark the sweep goes on behind the character there, and no occurrence starts
inside that character.

**Proof sketch.** An occurrence inside the character would start between characters. -/
lemma next_of_hasAt (hf : f.WellFormed) (hneedle : needle ≠ [])
    (hstarts : ∀ i, f.text.hasAt i needle = true → f.text.isBoundary i = true) {start : Nat}
    (hat : f.text.hasAt start needle = true) :
    start < f.text.nextBoundary start ∧ f.text.isBoundary (f.text.nextBoundary start) = true ∧
      ∀ i, start < i → i < f.text.nextBoundary start → f.text.hasAt i needle = false := by
  have hin : start < f.text.size := by
    have := Text.le_size_of_hasAt hat hneedle
    have := List.length_pos_iff.mpr hneedle
    omega
  obtain ⟨c, hc⟩ := Text.exists_charAt hf.valid (hstarts start hat) hin
  have hnext : f.text.nextBoundary start = start + c.utf8Size := by
    rw [Text.nextBoundary, hc]
  rw [hnext]
  refine ⟨Nat.lt_add_of_pos_right c.utf8Size_pos, Text.isBoundary_add_utf8Size hf.valid hc, ?_⟩
  intro i h1 h2
  have hinside := Text.not_isBoundary_inside hc (i := i - start) (by omega) (by omega)
  rw [Nat.add_sub_cancel' (Nat.le_of_lt h1)] at hinside
  exact Bool.eq_false_iff.mpr fun hat' => Bool.false_ne_true (hinside.symm.trans (hstarts i hat'))

/-- One step of the sweep, where the dialect accepts every candidate.

**Proof sketch.** Up to the next occurrence there is nothing to find. The occurrence itself is found
if a token starts there, and the step goes on behind the character, in which no other occurrence
starts. -/
lemma TokensFound.go (hf : f.WellFormed) (hneedle : needle ≠ [])
    (hstarts : ∀ i, f.text.hasAt i needle = true → f.text.isBoundary i = true)
    (haccepts : ∀ i, f.accepts i condition ≠ .ok false)
    (h : f.TokensFound l needle tokenEnd pos harvest.items) {verdict : Sweep.Verdict (Nat × Nat)}
    (hgo : f.tokenStep l condition needle tokenEnd last pos () = .ok (.go verdict next ())) :
    pos < next ∧ f.TokensFound l needle tokenEnd next (harvest.add verdict).items := by
  obtain ⟨_, -, hgo⟩ := bind_eq_ok.mp hgo
  split at hgo
  · cases hgo
  · rename_i start hstart
    obtain ⟨hle, -, hat, hbefore⟩ := Text.find_eq_some_iff.mp hstart
    obtain ⟨hadvance, -, hinside⟩ := next_of_hasAt hf hneedle hstarts hat
    have hpassed := h.skip hbefore
    -- the step goes on behind the character at the occurrence, so it is about the token there
    have hadd {found : Array (Nat × Nat)} (hfound : ∀ x ∈ harvest.items, x ∈ found)
        (hnew : ∀ stop, f.IsToken l needle tokenEnd (start, stop) → (start, stop) ∈ found) :
        f.TokensFound l needle tokenEnd (f.text.nextBoundary start) found := by
      rintro ⟨first, stop⟩ htoken hlt
      rcases Nat.lt_trichotomy first start with hlt' | rfl | hgt
      · exact hfound _ (hpassed _ htoken hlt')
      · exact hnew stop htoken
      · exact absurd htoken.1 (by simp [hinside first hgt hlt])
    obtain ⟨result, hresult, hgo⟩ := bind_eq_ok.mp hgo
    cases result with
    | none =>
      cases hgo
      refine ⟨by omega, hadd (fun _ hx => hx) fun stop htoken => ?_⟩
      cases hresult.symm.trans htoken.2.1
    | some stop =>
      dsimp only at hgo
      split at hgo
      · rename_i hin
        cases hgo
        refine ⟨by omega, hadd (fun _ hx => hx) fun stop htoken => ?_⟩
        exact absurd htoken.2.2 (by simp [hin])
      · obtain ⟨accepted, haccepted, hgo⟩ := bind_eq_ok.mp hgo
        cases accepted with
        | false => exact absurd haccepted (haccepts start)
        | true =>
          cases hgo
          refine ⟨by omega, hadd (fun _ hx => Array.mem_push_of_mem _ hx) fun stop' htoken => ?_⟩
          cases hresult.symm.trans htoken.2.1
          exact Array.mem_push_self

/-- Where the sweep stops, no occurrence is left.

**Proof sketch.** An occurrence fits into the text, so the search would have found it. -/
lemma TokensFound.finish (hneedle : needle ≠ [])
    (h : f.TokensFound l needle tokenEnd pos harvest.items)
    (hend : f.tokenStep l condition needle tokenEnd f.text.size pos () = .ok .stop) :
    ∀ token, f.IsToken l needle tokenEnd token → token ∈ harvest.items := by
  obtain ⟨_, -, hend⟩ := bind_eq_ok.mp hend
  split at hend
  · rename_i hnone
    intro token htoken
    have hfits := Text.le_size_of_hasAt htoken.1 hneedle
    have hpassed : ∀ i, pos ≤ i → i < token.1 + 1 → f.text.hasAt i needle = false :=
      fun i hge hlt => Text.find_eq_none_iff.mp hnone i hge (by omega)
    exact h.skip hpassed token htoken (Nat.lt_succ_self _)
  · obtain ⟨result, -, hend⟩ := bind_eq_ok.mp hend
    cases result with
    | none => cases hend
    | some stop =>
      dsimp only at hend
      split at hend
      · cases hend
      · obtain ⟨accepted, -, hend⟩ := bind_eq_ok.mp hend
        cases accepted <;> cases hend

/-- **The sweep for a mark finds all tokens that start with it**, and no others, where the dialect
accepts every candidate and the mark occurs between characters only.

**Proof sketch.** Induction along the sweep, once for either direction. What a step accepts is a
token, and the invariant of the other direction is that all tokens in front of the offset were found. -/
theorem tokens_found (hf : f.WellFormed) (hneedle : needle ≠ [])
    (hstarts : ∀ i, f.text.hasAt i needle = true → f.text.isBoundary i = true)
    (haccepts : ∀ i, f.accepts i condition ≠ .ok false)
    (h : Sweep.collect (f.tokenStep l condition needle tokenEnd f.text.size) f.text.size 0 () =
      .ok harvest) (token : Nat × Nat) :
    token ∈ harvest.items ↔ f.IsToken l needle tokenEnd token := by
  constructor
  · refine Sweep.forall_mem_collect (J := fun _ _ => True)
      (P := fun token => f.IsToken l needle tokenEnd token) (fun pos u verdict next u' _ hgo => ?_)
      trivial h token
    refine ⟨trivial, fun token htoken => ?_⟩
    subst htoken
    exact tokenStep_accepted hgo
  · exact Sweep.collect_induction (I := fun pos _ h => f.TokensFound l needle tokenEnd pos h.items)
      (Q := fun h => ∀ token, f.IsToken l needle tokenEnd token → token ∈ h.items)
      (fun _ _ _ _ _ _ hfound hgo _ => hfound.go hf hneedle hstarts haccepts hgo)
      (fun _ _ _ hfound hend => hfound.finish hneedle hend)
      (fun _ _ hlt => absurd hlt (Nat.not_lt_zero _)) h token

/-- A whole word of a list outside literals, with its bounds. -/
def HasWord (f : Frame) (l : Layout) (words : List Mark) (notAfter : List Char) (start stop : Nat) :
    Prop :=
  ∃ word ∈ words, f.text.IsWholeWord notAfter word start ∧ stop = start + word.length ∧
    l.inLiteral start = false

variable {word : Mark} {words : List Mark} {notAfter : List Char} {start stop : Nat}

/-- The tokens of a word are its whole occurrences.

**Proof sketch.** The end of a word exists if the characters on either side allow it. -/
lemma isToken_wordEnd_iff : f.IsToken l word (f.wordEnd word true notAfter) (start, stop) ↔
    f.text.IsWholeWord notAfter word start ∧ stop = start + word.length ∧
      l.inLiteral start = false := by
  have hchar (c : Option Char) (P : Char → Bool) :
      (!c.any P) = true ↔ ∀ x, c = some x → P x = false := by
    cases c <;> simp
  unfold IsToken wordEnd
  dsimp only
  simp only [Bool.not_true, Bool.false_or]
  constructor
  · rintro ⟨hat, hend, hout⟩
    split at hend
    · rename_i h
      simp only [Bool.and_eq_true, hchar] at h
      obtain ⟨⟨hbefore, hbehind⟩, hnot⟩ := h
      cases hend
      exact ⟨⟨hat, fun c hc => ⟨hbefore c hc, by simpa using hnot c hc⟩, hbehind⟩, rfl, hout⟩
    · cases hend
  · rintro ⟨hword, rfl, hout⟩
    refine ⟨hword.at_start, congrArg Except.ok (if_pos ?_), hout⟩
    simp only [Bool.and_eq_true, hchar]
    exact ⟨⟨fun c hc => (hword.before c hc).1, hword.behind⟩, fun c hc => by
      simpa using (hword.before c hc).2⟩

/-- A word of a list is the first one or one of the rest. -/
lemma hasWord_cons : f.HasWord l (word :: words) notAfter start stop ↔
    f.IsToken l word (f.wordEnd word true notAfter) (start, stop) ∨
      f.HasWord l words notAfter start stop := by
  rw [isToken_wordEnd_iff, HasWord, List.exists_mem_cons_iff]
  rfl

/-- All bytes of a word belong to identifiers. -/
lemma HasWord.wordByte (h : f.HasWord l words notAfter start stop)
    (hwords : ∀ word ∈ words, word.IsWord) {i : Nat} (h1 : start ≤ i) (h2 : i < stop) :
    f.text.byteIs isAsciiWordByte i = true := by
  obtain ⟨word, hmem, hword, rfl, -⟩ := h
  exact Text.byteIs_of_hasAt (hwords word hmem).2 hword.at_start h1 h2

/-- A word is not empty, and no identifier goes on at either end of it. -/
lemma HasWord.edges (h : f.HasWord l words notAfter start stop) (ht : f.text.Valid)
    (hwords : ∀ word ∈ words, word.IsWord) :
    start < stop ∧ (∀ i, i + 1 = start → f.text.byteIs isAsciiWordByte i = false) ∧
      f.text.byteIs isAsciiWordByte stop = false := by
  obtain ⟨word, hmem, hword, rfl, -⟩ := h
  have hlen : 0 < word.length := List.length_pos_iff.mpr (hwords word hmem).1.1
  exact ⟨by omega, fun i hi => hword.not_wordByte_before ht hi, hword.not_wordByte_behind⟩

end Frame

/-! ### Painting words -/

namespace Pass

variable {f : Frame} {l : Layout} {condition : Condition} {style : Style} {c d : Buffer}

/-- Painting the occurrences of a mark shows the style where a token lies.

**Proof sketch.** The tokens found are painted one after another, so a byte has the style if it had
it before or if one of the tokens covers it. -/
lemma styles_paintOccurrences (hf : f.WellFormed) (hspans : f.Spans) {needle : Mark}
    (hneedle : needle.IsPlain) (haccepts : ∀ i, f.accepts i condition ≠ .ok false)
    {tokenEnd : Frame.TokenEnd} (hc : c.text = f.text)
    (hd : paintOccurrences (.document f.text) f l condition needle tokenEnd style c = .ok d) :
    d.text = f.text ∧ ∀ i, i < f.text.size → (d.styles[i]? = some style ↔ c.styles[i]? = some style ∨
      ∃ start stop, f.IsToken l needle tokenEnd (start, stop) ∧ start ≤ i ∧ i < stop) := by
  unfold paintOccurrences at hd
  rw [if_neg (by simpa using hneedle.1)] at hd
  unfold paintTokens at hd
  rw [hspans.tokenRange_document] at hd
  obtain ⟨harvest, hharvest, hd⟩ := bind_eq_ok.mp hd
  cases hd
  rw [← Array.foldl_toList]
  refine ⟨by rw [Scene.text_foldl (fun canvas token => Scene.text_paint _ _ _ _ _), hc],
    fun i hi => ?_⟩
  have hfound := Frame.tokens_found hf hneedle.1
    (fun _ hat => Text.isBoundary_of_hasAt hneedle hat) haccepts hharvest
  have hany : harvest.items.toList.any (fun token => token.1 ≤ i && i < token.2) = true ↔
      ∃ start stop, f.IsToken l needle tokenEnd (start, stop) ∧ start ≤ i ∧ i < stop := by
    simp only [List.any_eq_true, Bool.and_eq_true, decide_eq_true_eq, Array.mem_toList_iff, hfound,
      Prod.exists]
  rw [Scene.styles_foldl_paint (fun token => token) hc _ _ hi, ← hany]
  split
  · rename_i h
    exact iff_of_true rfl (.inr h)
  · rename_i h
    exact ⟨.inl, fun h' => h'.resolve_right h⟩

/-- Painting words one after another shows the style where one of them lies.

**Proof sketch.** Induction on the list of words. -/
lemma styles_paintWords (hf : f.WellFormed) (hspans : f.Spans) {words : List Mark}
    (hwords : ∀ word ∈ words, word.IsPlain) (haccepts : ∀ i, f.accepts i condition ≠ .ok false)
    {notAfter : List Char} (hc : c.text = f.text)
    (hd : words.foldlM (fun canvas word => paintOccurrences (.document f.text) f l condition word
      (f.wordEnd word true notAfter) style canvas) c = .ok d) :
    d.text = f.text ∧ ∀ i, i < f.text.size → (d.styles[i]? = some style ↔ c.styles[i]? = some style ∨
      ∃ start stop, f.HasWord l words notAfter start stop ∧ start ≤ i ∧ i < stop) := by
  induction words generalizing c with
  | nil =>
    cases hd
    exact ⟨hc, by simp [Frame.HasWord]⟩
  | cons word rest ih =>
    rw [List.foldlM_cons] at hd
    obtain ⟨c', hc', hd⟩ := bind_eq_ok.mp hd
    obtain ⟨htext, hfirst⟩ :=
      styles_paintOccurrences hf hspans (hwords word (.head _)) haccepts hc hc'
    obtain ⟨htext', hrest⟩ := ih (fun w hw => hwords w (.tail _ hw)) htext hd
    refine ⟨htext', fun i hi => ?_⟩
    rw [hrest i hi, hfirst i hi, or_assoc]
    simp only [Frame.hasWord_cons, or_and_right, exists_or]

end Pass

/-- Literals have no style of code. -/
lemma Layout.marksCode_shade (l : Layout) (pos : Nat) : (l.shade pos).marksCode = false := by
  unfold shade
  split
  · rfl
  · split <;> rfl

namespace Primitive

variable {f : Frame} {p q : Pass}

/-- Painting words shows the style where one of them lies outside literals. -/
lemma run_keywords (hf : f.WellFormed) (hspans : f.Spans) {words : List Mark}
    (hwords : ∀ word ∈ words, word.IsPlain) (haccepts : ∀ i, f.accepts i p.condition ≠ .ok false)
    {notAfter : List Char} {style : Style} (hp : p.canvas.text = f.text)
    (h : run (.document f.text) (.keywords words true notAfter style) f p = .ok q) :
    q.canvas.text = f.text ∧ ∀ i, i < f.text.size → (q.canvas.styles[i]? = some style ↔
      p.canvas.styles[i]? = some style ∨ ∃ start stop,
        f.HasWord p.layout words notAfter start stop ∧ start ≤ i ∧ i < stop) := by
  simp only [run] at h
  obtain ⟨d, hd, h⟩ := bind_eq_ok.mp h
  cases h
  exact Pass.styles_paintWords hf hspans hwords haccepts hp hd

/-- Bytes of words are neither brackets nor braces. -/
lemma not_bracket_of_wordByte {t : Text} {i : Nat} (h : t.byteIs isAsciiWordByte i = true) :
    t.byteIs (mark "()[]").contains i = false ∧ t.byteIs (mark "\x7b\x7d").contains i = false := by
  have hall : ∀ n : Fin 256, isAsciiWordByte (UInt8.ofFin n) = true →
      (mark "()[]").contains (UInt8.ofFin n) = false ∧
        (mark "\x7b\x7d").contains (UInt8.ofFin n) = false := by
    decide +kernel
  obtain ⟨b, hb, hword⟩ := Text.byteIs_iff.mp h
  have hnone : (mark "()[]").contains b = false ∧ (mark "\x7b\x7d").contains b = false := by
    simpa using hall b.toFin (by simpa using hword)
  constructor
  · rw [Text.byteIs, hb]
    exact hnone.1
  · rw [Text.byteIs, hb]
    exact hnone.2

/-- Brackets and braces give no byte the style of keywords, and take none from a byte of a word.

**Proof sketch.** Brackets and braces are single bytes, painted in a style of their own, and no byte
of a word is one of them. -/
lemma runAll_brackets (hspans : f.Spans) (hquiet : p.repair = none) (hp : p.canvas.text = f.text)
    (h : runAll (.document f.text) [.brackets, .braces] f p = .ok q) :
    q.canvas.text = f.text ∧ ∀ i, i < f.text.size →
      (q.canvas.styles[i]? = some .keyword → p.canvas.styles[i]? = some .keyword) ∧
        (f.text.byteIs isAsciiWordByte i = true → q.canvas.styles[i]? = p.canvas.styles[i]?) := by
  rw [runAll_cons hquiet] at h
  obtain ⟨p₁, h₁, h⟩ := bind_eq_ok.mp h
  rw [runAll_cons (((run_continues _ f p p₁ h₁).repair rfl).trans hquiet)] at h
  obtain ⟨p₂, h₂, h⟩ := bind_eq_ok.mp h
  simp only [runAll] at h
  cases h
  obtain ⟨ht₁, hbrackets⟩ := run_marks hspans hp h₁
  obtain ⟨ht₂, hbraces⟩ := run_marks hspans ht₁ h₂
  refine ⟨ht₂, fun i hi => ⟨fun hstyle => ?_, fun hbyte => ?_⟩⟩
  · rw [hbraces i hi] at hstyle
    split at hstyle
    · cases hstyle
    · rw [hbrackets i hi] at hstyle
      split at hstyle
      · cases hstyle
      · exact hstyle
  · obtain ⟨hbracket, hbrace⟩ := not_bracket_of_wordByte hbyte
    rw [hbraces i hi, if_neg (by simp [hbrace]), hbrackets i hi, if_neg (by simp [hbracket])]

variable {program : List Primitive} {opened : Bool} {words : List Mark} {notAfter : List Char}

/-- After a program that maps literals, paints words and then brackets and braces, a byte has the style
of keywords if a whole word outside literals covers it.

**Proof sketch.** The canvas on which the words are painted shows literals only, and brackets take no
byte of a word. -/
lemma FullRun.style_keyword_iff (h : FullRun program opened f p q)
    (hshows : showsLiterals f.dialect program = true)
    (hrest : (mapping .start program).2 =
      [.keywords words true notAfter .keyword, .brackets, .braces])
    (hwords : ∀ word ∈ words, word.IsWord)
    (haccepts : ∀ i, f.accepts i (mapping .start program).1.due ≠ .ok false) (i : Nat) :
    q.canvas.styles[i]? = some .keyword ↔
      ∃ start stop, f.HasWord q.layout words notAfter start stop ∧ start ≤ i ∧ i < stop := by
  obtain ⟨-, p', hmapped, hlayout, hrun⟩ := h.coded hshows
  rw [hrest, runAll_cons hmapped.quiet] at hrun
  obtain ⟨p₁, h₁, hrun⟩ := bind_eq_ok.mp hrun
  obtain ⟨ht₁, hpainted⟩ := run_keywords h.wellFormed h.spans (fun w hw => (hwords w hw).1)
    (hmapped.condition ▸ haccepts) hmapped.text h₁
  have hquiet := ((run_continues _ f p' p₁ h₁).repair rfl).trans hmapped.quiet
  obtain ⟨ht, hbrackets⟩ := runAll_brackets h.spans hquiet ht₁ hrun
  rw [hlayout] at hpainted
  constructor
  · intro hstyle
    have hi : i < f.text.size := by
      have := (Array.getElem?_eq_some_iff.mp hstyle).1
      rwa [q.canvas.size_styles, ht] at this
    refine ((hpainted i hi).mp ((hbrackets i hi).1 hstyle)).resolve_left fun hshade => ?_
    rw [hmapped.shaded_of_plain h.plainCanvas i hi, Option.some.injEq] at hshade
    exact absurd (hshade ▸ Layout.marksCode_shade p'.layout i) (by decide)
  · rintro ⟨start, stop, hword, h1, h2⟩
    have hbyte := hword.wordByte hwords h1 h2
    have hi := Text.lt_size_of_byteIs hbyte
    rw [(hbrackets i hi).2 hbyte]
    exact (hpainted i hi).mpr (.inr ⟨start, stop, hword, h1, h2⟩)

/-- **Keywords are whole words.** The maximal ranges in the style of keywords are the whole words outside
literals. No byte of a word lies directly in front of a word or behind it, so no two of them run
together.

**Proof sketch.** The bytes in the style of keywords are those of whole words. A run is such a word
if words do not touch, and next to a word there is no byte that could belong to another. -/
theorem FullRun.keywords (h : FullRun program opened f p q)
    (hshows : showsLiterals f.dialect program = true)
    (hrest : (mapping .start program).2 =
      [.keywords words true notAfter .keyword, .brackets, .braces])
    (hwords : ∀ word ∈ words, word.IsWord)
    (haccepts : ∀ i, f.accepts i (mapping .start program).1.due ≠ .ok false) {start stop : Nat} :
    q.canvas.IsRun ⟨start, stop, .keyword⟩ ↔ f.HasWord q.layout words notAfter start stop := by
  have hcovers := h.style_keyword_iff hshows hrest hwords haccepts
  refine Buffer.isRun_iff_of_covers hcovers fun start stop hword => ?_
  obtain ⟨hlt, hbefore, hbehind⟩ := hword.edges h.wellFormed.valid hwords
  have hbyte {i : Nat} (hstyle : q.canvas.styles[i]? = some .keyword) :
      f.text.byteIs isAsciiWordByte i = true := by
    obtain ⟨start', stop', hword', h1, h2⟩ := (hcovers i).mp hstyle
    exact hword'.wordByte hwords h1 h2
  exact ⟨hlt, fun i hi hstyle => Bool.false_ne_true ((hbefore i hi).symm.trans (hbyte hstyle)),
    fun hstyle => Bool.false_ne_true (hbehind.symm.trans (hbyte hstyle))⟩

end Primitive

/-! ### Documents -/

/-- What is left of these programs once the literals are mapped, and what their words are made of. -/
lemma Profile.keywords_last {profile : Profile}
    (hprofile : profile ∈
      [Profile.java, Profile.csharp, Profile.javascript, Profile.python, Profile.r])
    {words : List Mark} {notAfter : List Char}
    (hwords : .keywords words true notAfter .keyword ∈ profile.program) :
    (Primitive.mapping .start profile.program).2 =
        [.keywords words true notAfter .keyword, .brackets, .braces] ∧
      (Primitive.mapping .start profile.program).1.due = .unconditional ∧
      Primitive.showsLiterals profile.dialect profile.program = true ∧
      ∀ word ∈ words, word.IsWord := by
  simp only [List.mem_cons, List.not_mem_nil, or_false] at hprofile
  rcases hprofile with rfl | rfl | rfl | rfl | rfl <;>
    · simp only [java, csharp, javascript, python, r, Primitive.brackets, Primitive.braces,
        List.mem_cons, reduceCtorEq, Primitive.keywords.injEq, and_true, true_and, List.not_mem_nil,
        or_self, or_false, false_or] at hwords
      obtain ⟨rfl, rfl⟩ := hwords
      exact ⟨rfl, rfl, by decide +kernel, by decide +kernel⟩

/-- Without heredocs and quote operators an offset lies in a literal if it lies in a string or in a
comment. -/
lemma Layout.Coded.inLiteral_eq_false_iff {t : Text} {l : Layout} {pos : Nat} (h : l.Coded t)
    (hnone : l.composite.inEither pos = none) : l.inLiteral pos = false ↔
      ¬ (l.quotes.Covers pos ∨ l.lineComments.Covers pos ∨ l.blockComments.Covers pos) := by
  have hliteral : l.inLiteral pos = true ↔
      l.quotes.Covers pos ∨ l.lineComments.Covers pos ∨ l.blockComments.Covers pos := by
    rw [Layout.inLiteral, hnone, Option.isSome_none, Bool.or_false, Bool.or_eq_true, h.inComment_iff,
      Layout.InComment, IntervalSet.isSome_inString_iff h.settled.quotes.nested]
  rw [← hliteral, Bool.not_eq_true]

/-- The runs of keywords after a full pass are the whole words of the list outside literals.

**Proof sketch.** A full pass is a pass over the document from a new layout. Its program maps
literals, then paints words, then brackets, and without heredocs and quote operators an offset lies
in a literal if one of the three sets covers it. -/
lemma Painter.keyword_mem_runs_iff {profile : Profile} {words : List Mark} {notAfter : List Char}
    {doc doc' : Buffer} {p p' : Painter}
    (hprofile : profile ∈
      [Profile.java, Profile.csharp, Profile.javascript, Profile.python, Profile.r])
    (hwords : .keywords words true notAfter .keyword ∈ profile.program) (hdoc : doc.text.Valid)
    (hfull : p.full profile doc = .ok (p', doc')) {start stop : Nat} :
    ⟨start, stop, .keyword⟩ ∈ doc'.runs ↔ ∃ word ∈ words,
      doc.text.IsWholeWord notAfter word start ∧ stop = start + word.length ∧
        ¬ (p'.layout.quotes.Covers start ∨ p'.layout.lineComments.Covers start ∨
          p'.layout.blockComments.Covers start) := by
  obtain ⟨hrest, hdue, hshows, hword⟩ := Profile.keywords_last hprofile hwords
  have hsound : profile.Sound := by
    refine Profile.sound_of_mem_builtIn ?_
    simp only [Profile.builtIn, List.mem_cons, List.not_mem_nil, or_false] at hprofile ⊢
    tauto
  obtain ⟨fresh, hnew, hlayout, -⟩ := full_fresh hsound hdoc hfull
  obtain ⟨pass, hpass, hfresh⟩ := exists_freshPass hsound hdoc
  obtain ⟨rfl, rfl⟩ := Prod.mk.inj (Except.ok.inj (hnew.symm.trans hfresh))
  have hrun := Profile.fullRun hsound hdoc hpass
  have haccepts (i : Nat) : (Frame.document doc.text profile.dialect).accepts i
      (Primitive.mapping .start profile.program).1.due ≠ .ok false := by
    rw [hdue]
    exact accepts_unconditional hprofile doc.text i
  rw [Buffer.mem_runs_iff, hrun.keywords hshows hrest hword haccepts, hlayout]
  have hout (pos : Nat) := (hrun.coded hshows).1.inLiteral_eq_false_iff
    (outside_composite hprofile hfresh pos)
  simp only [Frame.HasWord, hout]
  rfl

namespace Highlighter

variable {h h' : Highlighter} {profile : Profile} {doc doc' : Buffer}

/-- Highlighting a document is a full pass of the painter. -/
lemma full_of_highlightDocument (hp : h.profile = some profile)
    (hd : h.highlightDocument doc = .ok (h', doc')) :
    h.painter.full profile doc = .ok (h'.painter, doc') := by
  unfold highlightDocument at hd
  rw [hp] at hd
  obtain ⟨⟨painter, d⟩, hfull, hd⟩ := bind_eq_ok.mp hd
  obtain ⟨h₁, hfinish, hd⟩ := bind_eq_ok.mp hd
  cases hd
  obtain ⟨metrics, -, rfl⟩ := finish_eq_ok hfinish
  exact hfull

/-- A new highlighter highlights every document whose length a counter can hold.

**Proof sketch.** The pass succeeds on every document, and so does the count of a single pass. -/
lemma exists_highlightDocument_new {language : Language} {config : Config}
    (hp : config.profile? language = some profile) (hdoc : doc.text.Valid)
    (hsize : doc.size < Capacity.ofCount) :
    ∃ r, (Highlighter.new language config).highlightDocument doc = .ok r := by
  obtain ⟨r, hfull, -⟩ := Painter.full_ensures (p := .new) (Config.profile?_sound hp) hdoc
    Layout.historyOrdered_empty
  obtain ⟨metrics, hmetrics⟩ : ∃ metrics, Metrics.zero.record .full 0 doc.size = .ok metrics := by
    refine ⟨_, Metrics.accept_eq_ok_iff.mpr ⟨rfl, ?_, Metrics.hasDivisor_of_lt ?_⟩⟩
    · simpa [Metrics.fits, Metrics.withPass, Metrics.refreshAverage, Metrics.countPass,
        Metrics.passes, Metrics.zero, Capacity.ofTime] using ⟨by decide, hsize⟩
    · simp [Metrics.withPass, Metrics.refreshAverage, Metrics.countPass, Metrics.passes,
        Metrics.zero]
  unfold highlightDocument finish
  rw [show (Highlighter.new language config).profile = some profile from hp]
  show ∃ r', (Painter.new.full profile doc >>= _) = _
  rw [hfull]
  show ∃ r', ((Metrics.zero.record .full 0 doc.size >>= _) >>= _) = _
  rw [hmetrics]
  exact ⟨_, rfl⟩

/-- **Keyword painting is exact.** Take Java, C#, JavaScript, Python or R and its list of words. A new
highlighter highlights every document whose length a counter can hold. After any highlighter has
highlighted a document, the runs in the style of keywords are the occurrences of words of the list such
that the characters on either side are no word characters, the character in front is none of those that
the language excludes, and the first byte lies in no string, line comment or block comment.

**Proof sketch.** By `Painter.keyword_mem_runs_iff`. What is left is to write out what a whole word
is. -/
theorem keyword_runs
    (hprofile : profile ∈
      [Profile.java, Profile.csharp, Profile.javascript, Profile.python, Profile.r])
    {words : List Mark} {notAfter : List Char}
    (hwords : .keywords words true notAfter .keyword ∈ profile.program) (hdoc : doc.text.Valid) :
    (∀ (language : Language) (config : Config), config.profile? language = some profile →
      doc.size < Capacity.ofCount →
      ∃ r, (Highlighter.new language config).highlightDocument doc = .ok r) ∧
    ∀ (h h' : Highlighter) (doc' : Buffer), h.profile = some profile →
      h.highlightDocument doc = .ok (h', doc') →
      ∀ start stop, ⟨start, stop, .keyword⟩ ∈ doc'.runs ↔ ∃ word ∈ words,
        stop = start + word.length ∧ doc.text.hasAt start word = true ∧
        (∀ c, doc.text.charBefore start = some c → Unicode.isWordChar c = false ∧ c ∉ notAfter) ∧
        (∀ c, doc.text.charAt stop = some c → Unicode.isWordChar c = false) ∧
        ∀ set ∈ [h'.painter.layout.quotes, h'.painter.layout.lineComments,
          h'.painter.layout.blockComments], ¬ set.Covers start := by
  refine ⟨fun language config hp hsize => exists_highlightDocument_new hp hdoc hsize,
    fun h h' doc' hp hd start stop => ?_⟩
  rw [Painter.keyword_mem_runs_iff hprofile hwords hdoc (full_of_highlightDocument hp hd)]
  refine exists_congr fun word => and_congr_right fun _ => ?_
  simp only [List.forall_mem_cons, List.not_mem_nil, false_imp_iff, implies_true, and_true, not_or]
  constructor
  · rintro ⟨hword, rfl, hout⟩
    exact ⟨rfl, hword.at_start, hword.before, hword.behind, hout⟩
  · rintro ⟨rfl, hat, hbefore, hbehind, hout⟩
    exact ⟨⟨hat, hbefore, hbehind⟩, rfl, hout⟩

/-- One keyword is the start of the other two; a letter beyond ASCII, an excluded character, a string and a
comment keep further occurrences from counting. -/
theorem keyword_runs_csharp :
    ∃ (h' : Highlighter) (doc' : Buffer),
      (Highlighter.new .csharp .standard).highlightDocument
        (Buffer.new (Text.ofString "foreach(int éin, @in in\x7b\"in\"//in\n")) = .ok (h', doc') ∧
      doc'.runs.filter (fun run => run.style == .keyword) =
        [⟨0, 7, .keyword⟩, ⟨8, 11, .keyword⟩, ⟨22, 24, .keyword⟩] ∧
      ∀ start stop, ⟨start, stop, .keyword⟩ ∈ doc'.runs ↔ ∃ word ∈ Profile.csharpWords.map mark,
        stop = start + word.length ∧
        (Text.ofString "foreach(int éin, @in in\x7b\"in\"//in\n").hasAt start word = true ∧
        (∀ c, (Text.ofString "foreach(int éin, @in in\x7b\"in\"//in\n").charBefore start = some c →
          Unicode.isWordChar c = false ∧ c ∉ ['@', '.']) ∧
        (∀ c, (Text.ofString "foreach(int éin, @in in\x7b\"in\"//in\n").charAt stop = some c →
          Unicode.isWordChar c = false) ∧
        ∀ set ∈ [h'.painter.layout.quotes, h'.painter.layout.lineComments,
          h'.painter.layout.blockComments], ¬ set.Covers start := by
  have hrun : (do
      let r ← (Highlighter.new .csharp .standard).highlightDocument
        (Buffer.new (Text.ofString "foreach(int éin, @in in\x7b\"in\"//in\n"))
      demand (r.2.runs.filter (fun run : StyleRun => run.style == Style.keyword) =
        ([⟨0, 7, .keyword⟩, ⟨8, 11, .keyword⟩, ⟨22, 24, .keyword⟩] : List StyleRun)) .outOfRange) =
      .ok () := by
    decide +kernel
  obtain ⟨⟨h', doc'⟩, hdone, hrun⟩ := bind_eq_ok.mp hrun
  have hprofile : Profile.csharp ∈
      [Profile.java, Profile.csharp, Profile.javascript, Profile.python, Profile.r] := by
    simp
  have hwords : .keywords (Profile.csharpWords.map mark) true ['@', '.'] .keyword ∈
      Profile.csharp.program := by
    simp [Profile.csharp]
  exact ⟨h', doc', hdone, of_decide_eq_true (demand_eq_ok_iff.mp hrun),
    (keyword_runs hprofile hwords (Text.valid_ofString _)).2 _ _ _ rfl hdone⟩

end Highlighter

end LexPaint
