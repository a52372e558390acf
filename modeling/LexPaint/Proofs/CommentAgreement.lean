import LexPaint.Proofs.CommentLexers

set_option relaxedAutoImplicit false
set_option autoImplicit false

/-!
# The two lexers for block comments agree

The scanner and the scans of a pass are kept side by side: wherever the scanner comes through, it stands
in the string, the line comment or the block comment that the scans have mapped there, or in none of
them. One token keeps that if the scans read its start as the scanner does.

## Main definitions

* `Layout.Follows`: the scanner stands in what was mapped there.

## Main results

* `Layout.Follows.step`: one token.
* `Layout.Lexed.follows`: the whole scan.
* `Layout.Lexed.inBlockComment_iff`: the two lexers agree in front of where they read apart.
-/

namespace LexPaint

namespace Layout

variable {t : Text} {d : Dialect} {rules : CommentRules} {due : Condition} {l : Layout}
variable {p : LexPoint} {pos : Nat} {iv : Interval}

/-- The scanner stands in what was mapped there: in a string, a line comment or a block comment that
starts before the point and ends where the scanner will end it, or outside of all. -/
inductive Follows (t : Text) (d : Dialect) (rules : CommentRules) (l : Layout) : LexPoint → Prop
  | code {pos : Nat} (quotes : l.quotes.Clear pos) (lines : l.lineComments.Clear pos)
    (blocks : l.blockComments.Clear pos) : Follows t d rules l ⟨pos, .code⟩
  | quote {pos : Nat} {opener : UInt8} {iv : Interval} (hiv : iv ∈ l.quotes.intervals)
    (hstart : iv.start < pos) (hle : pos ≤ iv.stop) (hstop : iv.stop = t.closingEnd opener pos)
    (lines : l.lineComments.Clear pos) (blocks : l.blockComments.Clear pos) :
    Follows t d rules l ⟨pos, .quote opener⟩
  | textBlock {pos : Nat} {opener : UInt8} {iv : Interval} (hquote : isQuote opener = true)
    (hiv : iv ∈ l.quotes.intervals) (hstart : iv.start < pos) (hle : pos ≤ iv.stop)
    (hend : t.UnescapedEnd (CommentRules.triple opener) pos iv.stop)
    (hescaped : pos < t.size → t.escaped pos = false)
    (lines : l.lineComments.Clear pos) (blocks : l.blockComments.Clear pos) :
    Follows t d rules l ⟨pos, .textBlock opener⟩
  | lineComment {pos : Nat} {iv : Interval} (hiv : iv ∈ l.lineComments.intervals)
    (hstart : iv.start < pos) (hle : pos ≤ iv.stop)
    (quotes : l.quotes.Clear pos) (blocks : l.blockComments.Clear pos) :
    Follows t d rules l ⟨pos, .lineComment⟩
  | blockComment {pos : Nat} {iv : Interval} (hiv : iv ∈ l.blockComments.intervals)
    (hstart : iv.start + 2 ≤ pos)
    (hstop : iv.stop = (Frame.document t d).blockEnd rules.closer pos)
    (quotes : l.quotes.Clear pos) (lines : l.lineComments.Clear pos) :
    Follows t d rules l ⟨pos, .blockComment iv.start⟩

namespace Lexed

/-! ### Where nothing starts -/

/-- Strings start at quotes only. -/
lemma quotes_clear_succ (h : l.Lexed t d rules due) (hclear : l.quotes.Clear pos)
    (hno : t.byteIs isQuote pos = false) : l.quotes.Clear (pos + 1) := by
  refine hclear.mono (Nat.le_succ pos) fun iv hiv h1 h2 => ?_
  have hquote := h.quote_of_string hiv
  obtain rfl : iv.start = pos := by omega
  rw [hno] at hquote
  cases hquote

/-- At a byte that is no quote no string starts. -/
lemma quotes_clear_of_byte (h : l.Lexed t d rules due) (hclear : l.quotes.Clear pos) {b : UInt8}
    (hbyte : t.byteAt pos = some b) (hb : isQuote b = false) : l.quotes.Clear (pos + 1) :=
  h.quotes_clear_succ hclear ((Text.byteIs_of_byteAt hbyte).trans hb)

/-- Line comments start at two slashes only. -/
lemma lines_clear_succ (h : l.Lexed t d rules due) (hclear : l.lineComments.Clear pos)
    (hno : t.hasAt pos [0x2F, 0x2F] = false) : l.lineComments.Clear (pos + 1) := by
  refine hclear.mono (Nat.le_succ pos) fun iv hiv h1 h2 => ?_
  have hat := (h.of_lineComment hiv).1
  obtain rfl : iv.start = pos := by omega
  rw [hno] at hat
  cases hat

/-- At a byte that is no slash no line comment starts. -/
lemma lines_clear_of_byte (h : l.Lexed t d rules due) (hclear : l.lineComments.Clear pos) {b : UInt8}
    (hbyte : t.byteAt pos = some b) (hb : b ≠ 0x2F) : l.lineComments.Clear (pos + 1) :=
  h.lines_clear_succ hclear (Text.hasAt_pair_of_ne hbyte hb)

/-- No comment starts in a string. -/
lemma lines_clear_of_string (h : l.Lexed t d rules due) {pos' : Nat}
    (hclear : l.lineComments.Clear pos) (hle : pos ≤ pos') (hiv : iv ∈ l.quotes.intervals)
    (hstart : iv.start ≤ pos) (hstop : pos' ≤ iv.stop) : l.lineComments.Clear pos' := by
  refine hclear.mono hle fun iv' hiv' h1 h2 => ?_
  exact (h.of_lineComment hiv').2.2.1 ⟨iv, hiv, by omega, by omega⟩

/-- Offsets from the start of a line comment up to the end of its line stand behind it. -/
lemma behindStart (h : l.Lexed t d rules due) (hiv : iv ∈ l.lineComments.intervals)
    (hstart : iv.start ≤ pos) (hstop : pos ≤ iv.stop) : BehindStart t l pos := by
  refine ⟨iv, hiv, hstart, fun i h1 h2 => ?_⟩
  rw [(h.of_lineComment hiv).2.1] at hstop
  exact Text.byteAt_ne_newline_of_lt_lineEnd h1 (by omega)

/-- An offset that no line comment reaches over stands behind none that starts before it, unless it is
at the end of the line.

**Proof sketch.** A line comment that starts before the offset has ended in front of it, and it ends
at a newline. So another line has begun since. -/
lemma not_behindStart (h : l.Lexed t d rules due) (hclear : l.lineComments.Clear pos)
    (hpos : pos < t.size) (hbyte : t.byteAt pos ≠ some newline)
    (hat : t.hasAt pos [0x2F, 0x2F] = false) : ¬ BehindStart t l pos := by
  rintro ⟨iv, hiv, hle, hno⟩
  obtain ⟨hslashes, hstop, -⟩ := h.of_lineComment hiv
  rcases Nat.eq_or_lt_of_le hle with rfl | hlt
  · rw [hat] at hslashes
    cases hslashes
  · have hend := hclear iv hiv hlt
    have hstart : iv.start ≤ t.lineEnd iv.start := Text.le_lineEnd (by omega)
    rcases Text.endsLine_lineEnd t iv.start with hsize | hnewline
    · omega
    · rw [← hstop] at hnewline hstart
      rcases Nat.eq_or_lt_of_le hend with heq | hlt'
      · exact hbyte (heq ▸ hnewline)
      · exact hno iv.stop hstart hlt' hnewline

end Lexed

/-! ### Literals that open in the code -/

namespace Lexed

/-- An open mark in the code opens a block comment.

**Proof sketch.** The scan for block comments has a comment on every open mark outside strings and
line comments. No string starts at a slash and no line comment at an open mark, and none reaches over
it. -/
lemma exists_block_of_code (h : l.Lexed t d rules due) (hquotes : l.quotes.Clear pos)
    (hlines : l.lineComments.Clear pos) (hblocks : l.blockComments.Clear pos)
    (hat : t.hasAt pos [0x2F, 0x2A] = true) :
    ∃ iv ∈ l.blockComments.intervals, iv.start = pos ∧
      iv.stop = (Frame.document t d).blockEnd rules.closer (pos + 2) := by
  obtain ⟨hslash, hstar⟩ := Text.hasAt_pair.mp hat
  have hnostring : ¬ l.quotes.Covers pos := by
    rintro ⟨iv, hiv, h1, h2⟩
    obtain rfl := hquotes.start_eq hiv h1 h2
    have hquote := h.quote_of_string hiv
    rw [Text.byteIs_of_byteAt hslash] at hquote
    exact absurd hquote (by decide)
  have hnoline : ¬ BehindStart t l pos := by
    refine h.not_behindStart hlines (Text.lt_size_of_byteAt hslash) ?_ ?_
    · rw [hslash]
      decide
    · rw [Bool.eq_false_iff, ne_eq, Text.hasAt_pair, hstar]
      exact fun hslashes => absurd (Option.some.inj hslashes.2) (by decide)
  obtain ⟨iv, hiv, h1, h2⟩ := h.exists_blockComment hat hnostring hnoline
  obtain rfl := hblocks.start_eq hiv h1 h2
  exact ⟨iv, hiv, rfl, (h.of_blockComment hiv).2.1⟩

/-- A mark in the code opens a line comment, if the search for line comments goes on from it.

**Proof sketch.** The scan for line comments has a comment on the mark, or it has rejected one that
overlaps it from before. Of two slashes in a row the scans and the scanner take the same ones, which
is what the condition on the point says. -/
lemma exists_line_of_code (h : l.Lexed t d rules due) (hquotes : l.quotes.Clear pos)
    (hlines : l.lineComments.Clear pos) (hm : [0x2F, 0x2F] ∈ rules.lineMarks)
    (hat : t.hasAt pos [0x2F, 0x2F] = true) (hblock : d.inBlockComment t pos = none)
    (hread : d.ReadsAlike rules t ⟨pos, .code⟩) :
    ∃ iv ∈ l.lineComments.intervals, iv.start = pos ∧ pos + 2 ≤ iv.stop := by
  obtain ⟨hslash, -⟩ := Text.hasAt_pair.mp hat
  have hsize := Text.lt_size_of_byteAt hslash
  obtain ⟨iv, hiv, h1, h2⟩ := h.exists_lineComment hm hat fun start hle hover => by
    obtain ⟨m', hm', hat', hlt⟩ := hover
    obtain rfl := h.slashed.eq_slashes hm'
    have hnoquote : t.byteIs isQuote start = false := by
      rw [Text.byteIs_of_byteAt (Text.hasAt_pair.mp hat').1]
      decide
    constructor
    · rintro ⟨iv, hiv, h1, h2⟩
      rcases Nat.eq_or_lt_of_le h1 with rfl | hlt'
      · rw [h.quote_of_string hiv] at hnoquote
        cases hnoquote
      · -- the string would end at the mark, behind the slash
        have hend := hquotes iv hiv (by omega)
        simp only [List.length_cons, List.length_nil] at hlt
        obtain rfl : iv.stop = pos := by omega
        rcases h.stop_of_string hiv with hstop | hstop | hstop
        · omega
        · rw [hslash] at hstop
          exact absurd (Option.some.inj hstop) (by decide)
        · rw [show iv.stop - 1 = start by omega, hnoquote] at hstop
          cases hstop
    · -- two slashes that overlap the mark would be read in different ways
      rcases Nat.eq_or_lt_of_le hle with rfl | hlt'
      · exact hblock
      · exact hread.2 _ hm hat start hlt' ⟨_, hm, hat', hlt⟩
  obtain rfl := hlines.start_eq hiv h1 h2
  refine ⟨iv, hiv, rfl, ?_⟩
  rw [(h.of_lineComment hiv).2.1]
  exact Text.add_length_le_lineEnd (by decide) hat

/-- A quote in the code opens a string, if the scans read it as the scanner does.

**Proof sketch.** The scan for strings has a string on the quote, since it has no reason to discard
it. The string starts there, as none reaches over the point. It ends as the program for strings says. -/
lemma exists_string_of_code (h : l.Lexed t d rules due) (hquotes : l.quotes.Clear pos)
    {quote : UInt8} (hbyte : t.byteAt pos = some quote) (hquote : isQuote quote = true)
    (hblock : d.inBlockComment t pos = none) (hread : d.ReadsAlike rules t ⟨pos, .code⟩) :
    ∃ iv ∈ l.quotes.intervals, iv.start = pos ∧
      (rules.textBlocks = true → t.hasAt pos (CommentRules.triple quote) = true →
        t.UnescapedEnd (CommentRules.triple quote) (pos + 3) iv.stop) ∧
      ((rules.textBlocks = true → t.hasAt pos (CommentRules.triple quote) = false) →
        iv.stop = t.closingEnd quote (pos + 1)) := by
  obtain ⟨hescaped, hbehind, hblocks⟩ := hread.1 quote hbyte hquote
  obtain ⟨iv, hiv, h1, h2⟩ := h.exists_string (Text.byteIs_iff.mpr ⟨quote, hbyte, hquote⟩) hescaped
    hbehind hblock
  obtain rfl := hquotes.start_eq hiv h1 h2
  refine ⟨iv, hiv, rfl, ?_⟩
  obtain ⟨-, quote', hbyte', hquote', hstring⟩ := h.strings iv hiv
  obtain rfl : quote = quote' := Option.some.inj (hbyte.symm.trans hbyte')
  rcases Frame.stringAt_eq_ok h.valid hquote hstring with ⟨hdue, hat, hend⟩ | ⟨hdeclined, hstop⟩
  · refine ⟨fun _ _ => hend, fun hsingle => ?_⟩
    rw [hsingle (h.blocks_due.mpr hdue)] at hat
    cases hat
  · refine ⟨fun htext hat => ?_, fun _ => hstop⟩
    have haccepts := hblocks htext hat
    rw [hdeclined (h.blocks_due.mp htext) hat] at haccepts
    cases haccepts

end Lexed

/-! ### One token -/

namespace Follows

/-- A block comment starts at a slash, so at no quote. -/
lemma not_quote_of_block (h : l.Lexed t d rules due) (hiv : iv ∈ l.blockComments.intervals) {quote : UInt8}
    (hbyte : t.byteAt iv.start = some quote) : isQuote quote = false := by
  rw [(Text.hasAt_pair.mp (h.of_blockComment hiv).1).1] at hbyte
  obtain rfl := Option.some.inj hbyte
  decide

/-- No block comment starts in a token of the code that opens none.

**Proof sketch.** By cases on the token. A block comment that starts in it starts with a slash and a
star outside strings and line comments, but the token is one byte that is no such slash, a mark of a
line comment, or the quotes of a string. -/
lemma no_block_of_code (h : l.Lexed t d rules due) (quotes : l.quotes.Clear pos)
    (lines : l.lineComments.Clear pos) (hblock : d.inBlockComment t pos = none)
    (howner : (rules.codeToken t pos).owner = none) (hiv : iv ∈ l.blockComments.intervals)
    (h1 : pos ≤ iv.start) (h2 : iv.start < pos + (rules.codeToken t pos).length)
    (hread : pos < iv.start → d.ReadsAlike rules t ⟨pos, .code⟩) : False := by
  obtain ⟨hat, -, -, hnoline⟩ := h.of_blockComment hiv
  -- a block comment does not start with a quote
  have hnoquote {quote : UInt8} (hbyte : t.byteAt iv.start = some quote)
      (hquote : isQuote quote = true) : False := by
    rw [not_quote_of_block h hiv hbyte] at hquote
    cases hquote
  have htoken := h.slashed.codeToken t pos
  generalize rules.codeToken t pos = token at htoken howner h2
  cases htoken with
  | opener => cases howner
  | lineMark hm hslashes =>
    rcases Nat.eq_or_lt_of_le h1 with rfl | hlt
    · have hlast := (Text.hasAt_pair.mp hslashes).2
      rw [(Text.hasAt_pair.mp hat).2] at hlast
      exact absurd (Option.some.inj hlast) (by decide)
    · obtain ⟨line, hline, rfl, hstop⟩ :=
        h.exists_line_of_code quotes lines hm hslashes hblock (hread hlt)
      exact hnoline (h.behindStart hline h1 (by dsimp only at h2; omega))
  | textBlock _ hquote _ htriple => exact hnoquote (Text.byteAt_triple htriple h1 h2) hquote
  | quote hbyte hquote _ =>
    obtain rfl : iv.start = pos := by
      dsimp only at h2
      omega
    exact hnoquote hbyte hquote
  | other _ hopener _ =>
    obtain rfl : iv.start = pos := by
      dsimp only at h2
      omega
    rw [hat] at hopener
    cases hopener

/-- No block comment starts in a token that belongs to none.

**Proof sketch.** By cases on where the scanner stands. In a string or a line comment the whole token
lies in what was mapped, and no block comment starts there. In the code it is `no_block_of_code`. -/
lemma no_block (h : l.Lexed t d rules due) (hscan : rules.Scans t ⟨0, .code⟩ p)
    (hf : Follows t d rules l p) (hp : p.pos < t.size) (howner : (rules.nextToken t p).owner = none)
    (hiv : iv ∈ l.blockComments.intervals) (h1 : p.pos ≤ iv.start)
    (h2 : iv.start < (rules.behind t p).pos)
    (hread : p.pos < iv.start → d.ReadsAlike rules t p) : False := by
  have hproper := h.slashed.proper
  obtain ⟨hat, -, hnostring, hnoline⟩ := h.of_blockComment hiv
  -- no block comment starts in a string
  have hcovers {string : Interval} (hstring : string ∈ l.quotes.intervals)
      (hstart : string.start ≤ p.pos) (hlt : iv.start < string.stop) : False :=
    hnostring ⟨string, hstring, Nat.le_trans hstart h1, hlt⟩
  cases hf with
  | @code pos quotes lines blocks =>
    have hblock : d.inBlockComment t pos = none := by
      rw [CommentRules.inBlockComment_eq hproper h.comments hscan hp (Nat.le_refl _)
        (hproper.lt_behind hp), howner]
    have hlength : (rules.behind t ⟨pos, .code⟩).pos ≤ pos + (rules.codeToken t pos).length :=
      Nat.add_le_add_left (Nat.min_le_left _ _) _
    exact no_block_of_code h quotes lines hblock howner hiv h1 (Nat.lt_of_lt_of_le h2 hlength) hread
  | @quote pos opener string hstring hstart hle hstop lines blocks =>
    rcases CommentRules.behind_quote h.slashed.oneLine hp with
      ⟨pos', hbehind, -, hsize, hclosing⟩ | ⟨hbehind, hclosing | ⟨-, hnewline⟩⟩
    · rw [hbehind] at h2
      have hpos' : pos' ≤ t.closingEnd opener pos' := Text.le_closingEnd hsize
      exact hcovers hstring (Nat.le_of_lt hstart) (by
        rw [hstop, hclosing]
        exact Nat.lt_of_lt_of_le h2 hpos')
    · rw [hbehind] at h2
      exact hcovers hstring (Nat.le_of_lt hstart) (by
        rw [hstop, hclosing]
        exact h2)
    · rw [hbehind] at h2
      obtain rfl : iv.start = pos := by
        dsimp only at h1 h2
        omega
      rw [(Text.hasAt_pair.mp hat).1] at hnewline
      exact absurd (Option.some.inj hnewline) (by decide)
  | @textBlock pos opener string hquote hstring hstart hle hend hescaped lines blocks =>
    rcases CommentRules.behind_textBlock (r := rules) hquote hp (hescaped hp) hend with
      ⟨pos', hbehind, -, hstop, -, -⟩ | ⟨hbehind, -⟩
    · rw [hbehind] at h2
      exact hcovers hstring (Nat.le_of_lt hstart) (Nat.lt_of_lt_of_le h2 hstop)
    · rw [hbehind] at h2
      exact hcovers hstring (Nat.le_of_lt hstart) h2
  | @lineComment pos line hline hstart hle quotes blocks =>
    rw [CommentRules.behind_lineComment hp] at h2
    obtain rfl : iv.start = pos := by
      dsimp only at h1 h2
      omega
    exact hnoline (h.behindStart hline (Nat.le_of_lt hstart) hle)
  | blockComment =>
    rw [CommentRules.owner_nextToken Lexeme.noConfusion] at howner
    cases howner

/-- Where no block comment reaches over a token that belongs to none, none reaches over its end. -/
lemma blocks_behind (h : l.Lexed t d rules due) (hscan : rules.Scans t ⟨0, .code⟩ p)
    (hf : Follows t d rules l p) (hp : p.pos < t.size) (hread : d.ReadsAlike rules t p)
    (hblocks : l.blockComments.Clear p.pos) (howner : (rules.nextToken t p).owner = none) :
    l.blockComments.Clear (rules.behind t p).pos :=
  hblocks.mono (Nat.le_of_lt (h.slashed.proper.lt_behind hp)) fun _ hiv h1 h2 =>
    hf.no_block h hscan hp howner hiv h1 h2 fun _ => hread

/-- No string starts in a token of a block comment or of a line comment that the scans read alike. -/
lemma quotes_behind (h : l.Lexed t d rules due) {pos' : Nat} (hclear : l.quotes.Clear pos)
    (hle : pos ≤ pos') (hdiscards : ∀ i, pos ≤ i → i < pos' → t.byteIs isQuote i = true →
      d.Discards t l i) : l.quotes.Clear pos' :=
  hclear.mono hle fun iv hiv h1 h2 =>
    (h.quotes.opened iv hiv).2 (hdiscards iv.start h1 h2 (h.quote_of_string hiv))

/-- One token in the code.

**Proof sketch.** By cases on the token. Quotes, slashes with a star, and two slashes open a literal
for the scans just there, with the end that the scanner will find. Any other byte opens none. -/
lemma step_code (h : l.Lexed t d rules due) (hscan : rules.Scans t ⟨0, .code⟩ ⟨pos, .code⟩)
    (hf : Follows t d rules l ⟨pos, .code⟩) (hp : pos < t.size)
    (hread : d.ReadsAlike rules t ⟨pos, .code⟩) :
    Follows t d rules l (rules.behind t ⟨pos, .code⟩) := by
  have hproper := h.slashed.proper
  obtain ⟨quotes, lines, blocks⟩ : l.quotes.Clear pos ∧ l.lineComments.Clear pos ∧
      l.blockComments.Clear pos := by
    cases hf with
    | code quotes lines blocks => exact ⟨quotes, lines, blocks⟩
  have hlt : pos < (rules.behind t ⟨pos, .code⟩).pos :=
    hproper.lt_behind (p := ⟨pos, .code⟩) hp
  have hnext : rules.nextToken t ⟨pos, .code⟩ = rules.codeToken t pos := rfl
  have hblock : (rules.codeToken t pos).owner = none → d.inBlockComment t pos = none := by
    intro howner
    rw [CommentRules.inBlockComment_eq hproper h.comments hscan hp (Nat.le_refl pos) hlt, hnext, howner]
  -- a token that belongs to no comment starts none, so no mapped block starts in it
  have hclear : (rules.codeToken t pos).owner = none →
      l.blockComments.Clear (rules.behind t ⟨pos, .code⟩).pos := fun howner =>
    hf.blocks_behind h hscan hp hread blocks (hnext ▸ howner)
  have htoken := h.slashed.codeToken t pos
  generalize htok : rules.codeToken t pos = token at htoken hblock hclear
  rw [htok] at hnext
  cases htoken with
  | opener hat =>
    obtain ⟨hslash, hstar⟩ := Text.hasAt_pair.mp hat
    obtain ⟨iv, hiv, rfl, hstop⟩ := h.exists_block_of_code quotes lines blocks hat
    have hfits : iv.start + 2 ≤ t.size := Text.lt_size_of_byteAt hstar
    rw [CommentRules.behind_of_token hnext hfits]
    have hquotes := h.quotes_clear_of_byte (h.quotes_clear_of_byte quotes hslash (by decide)) hstar
      (by decide)
    -- the star behind the slash keeps a line comment from starting here
    have hnoline : t.hasAt iv.start [0x2F, 0x2F] = false := by
      rw [Bool.eq_false_iff, ne_eq, Text.hasAt_pair, hstar]
      exact fun hat' => absurd (Option.some.inj hat'.2) (by decide)
    have hlines := h.lines_clear_of_byte (h.lines_clear_succ lines hnoline) hstar (by decide)
    exact .blockComment hiv (Nat.le_refl _) hstop hquotes hlines
  | lineMark hm hat =>
    obtain ⟨hslash, hlast⟩ := Text.hasAt_pair.mp hat
    obtain ⟨iv, hiv, rfl, hstop⟩ := h.exists_line_of_code quotes lines hm hat (hblock rfl) hread
    have hfits : iv.start + 2 ≤ t.size := Text.lt_size_of_byteAt hlast
    have hclear := hclear rfl
    rw [CommentRules.behind_of_token hnext hfits] at hclear ⊢
    have hquotes := h.quotes_clear_of_byte (h.quotes_clear_of_byte quotes hslash (by decide)) hlast
      (by decide)
    exact .lineComment hiv (Nat.lt_add_of_pos_right Nat.two_pos) hstop hquotes hclear
  | @textBlock quote hbyte hquote htext hat =>
    have hne : quote ≠ 0x2F := by
      rintro rfl
      exact absurd hquote (by decide)
    obtain ⟨iv, hiv, rfl, hend, -⟩ := h.exists_string_of_code quotes hbyte hquote (hblock rfl) hread
    have hend := hend htext hat
    have hfits : iv.start + 3 ≤ t.size := Text.le_size_of_hasAt hat (by simp [CommentRules.triple])
    have hclear := hclear rfl
    rw [CommentRules.behind_of_token hnext hfits] at hclear ⊢
    have hsecond := Text.byteAt_triple hat (Nat.le_add_right _ 1) (by omega)
    have hthird := Text.byteAt_triple hat (Nat.le_add_right _ 2) (by omega)
    -- the last of the three quotes does not escape the body
    have hescaped : t.escaped (iv.start + 3) = false := by
      refine Text.escaped_succ_of_not ?_
      rw [Text.byteIs_of_byteAt hthird, beq_eq_false_iff_ne]
      rintro rfl
      exact absurd hquote (by decide)
    have hlines := h.lines_clear_of_byte
      (h.lines_clear_of_byte (h.lines_clear_of_byte lines hbyte hne) hsecond hne) hthird hne
    exact .textBlock hquote hiv (Nat.lt_add_of_pos_right (Nat.succ_pos 2)) (hend.le_stop hfits) hend
      (fun _ => hescaped) hlines hclear
  | @quote quote hbyte hquote hsingle =>
    have hne : quote ≠ 0x2F := by
      rintro rfl
      exact absurd hquote (by decide)
    obtain ⟨iv, hiv, rfl, -, hstop⟩ := h.exists_string_of_code quotes hbyte hquote (hblock rfl) hread
    have hstop := hstop hsingle
    have hclear := hclear rfl
    rw [CommentRules.behind_of_token hnext hp] at hclear ⊢
    have hle : iv.start + 1 ≤ iv.stop := hstop ▸ Text.le_closingEnd hp
    exact .quote hiv (Nat.lt_succ_self _) hle hstop (h.lines_clear_of_byte lines hbyte hne) hclear
  | other hquote hopener hmarks =>
    have hclear := hclear rfl
    rw [CommentRules.behind_of_token hnext hp] at hclear ⊢
    refine .code (h.quotes_clear_succ quotes hquote) (lines.mono (Nat.le_succ _) fun iv hiv h1 h2 => ?_)
      hclear
    obtain rfl : iv.start = pos := by
      dsimp only at h2
      omega
    obtain ⟨m, hm, hat⟩ := List.any_eq_true.mp (h.lines.opened iv hiv).1
    rw [hmarks m hm] at hat
    cases hat

/-- One token in a string that ends with its line.

**Proof sketch.** Both look for the closing quote in the same way, so the end of the string stays the
same from one byte to the next (`CommentRules.behind_quote`). -/
lemma step_quote (h : l.Lexed t d rules due) {opener : UInt8}
    (hp : pos < t.size) (hiv : iv ∈ l.quotes.intervals) (hstart : iv.start < pos)
    (hstop : iv.stop = t.closingEnd opener pos) (lines : l.lineComments.Clear pos)
    (hclear : l.blockComments.Clear (rules.behind t ⟨pos, .quote opener⟩).pos) :
    Follows t d rules l (rules.behind t ⟨pos, .quote opener⟩) := by
  rcases CommentRules.behind_quote h.slashed.oneLine hp with
    ⟨pos', hbehind, hpos, hsize, hclosing⟩ | ⟨hbehind, hclosing | ⟨hclosing, hnewline⟩⟩ <;>
    rw [hbehind] at hclear ⊢
  · have hle' : pos' ≤ iv.stop := by
      rw [hstop, hclosing]
      exact Text.le_closingEnd hsize
    exact .quote hiv (Nat.lt_trans hstart hpos) hle' (hstop.trans hclosing)
      (h.lines_clear_of_string lines (Nat.le_of_lt hpos) hiv (Nat.le_of_lt hstart) hle') hclear
  · have hend : iv.stop = pos + 1 := hstop.trans hclosing
    exact .code (hend ▸ IntervalSet.clear_stop h.quoteTiles hiv)
      (h.lines_clear_of_string lines (Nat.le_succ _) hiv (Nat.le_of_lt hstart)
        (Nat.le_of_eq hend.symm)) hclear
  · have hend : iv.stop = pos := hstop.trans hclosing
    have hquotes : l.quotes.Clear pos := hend ▸ IntervalSet.clear_stop h.quoteTiles hiv
    exact .code (h.quotes_clear_of_byte hquotes hnewline (by decide))
      (h.lines_clear_of_byte lines hnewline (by decide)) hclear

/-- One token in a text block. -/
lemma step_textBlock (h : l.Lexed t d rules due) {opener : UInt8} (hp : pos < t.size)
    (hquote : isQuote opener = true) (hiv : iv ∈ l.quotes.intervals) (hstart : iv.start < pos)
    (hle : pos ≤ iv.stop) (hend : t.UnescapedEnd (CommentRules.triple opener) pos iv.stop)
    (hescaped : t.escaped pos = false) (lines : l.lineComments.Clear pos)
    (hclear : l.blockComments.Clear (rules.behind t ⟨pos, .textBlock opener⟩).pos) :
    Follows t d rules l (rules.behind t ⟨pos, .textBlock opener⟩) := by
  rcases CommentRules.behind_textBlock (r := rules) hquote hp hescaped hend with
    ⟨pos', hbehind, hpos, hle', hend', hescaped'⟩ | ⟨hbehind, -⟩ <;> rw [hbehind] at hclear ⊢
  · exact .textBlock hquote hiv (Nat.lt_trans hstart hpos) hle' hend' hescaped'
      (h.lines_clear_of_string lines (Nat.le_of_lt hpos) hiv (Nat.le_of_lt hstart) hle') hclear
  · exact .code (IntervalSet.clear_stop h.quoteTiles hiv)
      (h.lines_clear_of_string lines hle hiv (Nat.le_of_lt hstart) (Nat.le_refl _)) hclear

/-- One byte in a line comment. The comment ends with its line for both.

**Proof sketch.** The quotes in the comment stand behind its mark, so they open no string. -/
lemma step_lineComment (h : l.Lexed t d rules due) (hp : pos < t.size)
    (hiv : iv ∈ l.lineComments.intervals) (hstart : iv.start < pos) (hle : pos ≤ iv.stop)
    (quotes : l.quotes.Clear pos) (hread : d.ReadsAlike rules t ⟨pos, .lineComment⟩)
    (hclear : l.blockComments.Clear (rules.behind t ⟨pos, .lineComment⟩).pos) :
    Follows t d rules l (rules.behind t ⟨pos, .lineComment⟩) := by
  have hstop := (h.of_lineComment hiv).2.1
  have hquotes : l.quotes.Clear (pos + 1) := by
    refine quotes_behind h quotes (Nat.le_succ pos) fun i h1 h2 hquote => ?_
    obtain rfl : i = pos := Nat.le_antisymm (Nat.le_of_lt_succ h2) h1
    rcases hread hquote with hescaped | hbehind
    · exact .inl hescaped
    · exact .inr (.inr (.inl hbehind))
  rw [CommentRules.behind_lineComment hp] at hclear ⊢
  cases hn : t.byteIs (· == newline) pos with
  | true =>
    have hnewline := Text.byteIs_eq_iff.mp hn
    have hend : iv.stop = pos := by
      refine Nat.le_antisymm (Nat.le_of_not_lt fun hlt => ?_) hle
      rw [hstop] at hlt
      exact Text.byteAt_ne_newline_of_lt_lineEnd (Nat.le_of_lt hstart) hlt hnewline
    have hlines : l.lineComments.Clear pos := hend ▸ IntervalSet.clear_stop h.lineTiles hiv
    exact .code hquotes (h.lines_clear_of_byte hlines hnewline (by decide)) hclear
  | false =>
    refine .lineComment hiv (Nat.lt_succ_of_lt hstart) ?_ hquotes hclear
    refine Nat.lt_of_le_of_ne hle fun (heq : pos = iv.stop) => ?_
    rw [hstop] at heq
    rcases Text.endsLine_lineEnd t iv.start with hsize | hnewline
    · omega
    · rw [← heq, ← Text.byteIs_eq_iff, hn] at hnewline
      cases hnewline

/-- One token in a block comment. The quotes in it are discarded and the marks rejected.

**Proof sketch.** The comment scanner answers for every byte of the token that it lies in the
comment, which is a reason for the scans to discard its quotes and to reject its marks. -/
lemma step_blockComment (h : l.Lexed t d rules due)
    (hscan : rules.Scans t ⟨0, .code⟩ ⟨pos, .blockComment iv.start⟩) (hp : pos < t.size)
    (hiv : iv ∈ l.blockComments.intervals) (hstart : iv.start + 2 ≤ pos)
    (hstop : iv.stop = (Frame.document t d).blockEnd rules.closer pos) (quotes : l.quotes.Clear pos)
    (lines : l.lineComments.Clear pos) :
    Follows t d rules l (rules.behind t ⟨pos, .blockComment iv.start⟩) := by
  have hproper := h.slashed.proper
  have hle : pos ≤ (rules.behind t ⟨pos, .blockComment iv.start⟩).pos :=
    Nat.le_of_lt (hproper.lt_behind (p := ⟨pos, .blockComment iv.start⟩) hp)
  have hblock {i : Nat} (h1 : pos ≤ i)
      (h2 : i < (rules.behind t ⟨pos, .blockComment iv.start⟩).pos) :
      d.inBlockComment t i = some iv.start := by
    rw [CommentRules.inBlockComment_eq hproper h.comments hscan hp h1 h2,
      CommentRules.owner_nextToken Lexeme.noConfusion]
    rfl
  have hquotes := quotes_behind h quotes hle fun i h1 h2 _ => .inr (.inr (.inr (by
    rw [hblock h1 h2]
    rfl)))
  have hlines := lines.mono hle fun iv' hiv' h1 h2 => by
    have hnone := (h.of_lineComment hiv').2.2.2
    rw [hblock h1 h2] at hnone
    cases hnone
  rcases CommentRules.behind_blockComment d iv.start hproper.closer hp with
    ⟨hbehind, hend⟩ | hbehind <;> rw [hbehind] at hquotes hlines ⊢
  · exact .blockComment hiv (Nat.le_succ_of_le hstart) (hstop.trans hend) hquotes hlines
  · exact .code hquotes hlines (hstop ▸ IntervalSet.clear_stop h.blockTiles hiv)

/-- **The scans follow the scanner.** Where the scanner stands in what was mapped there, it does so one
token on, if the scans read the token as the scanner does.

**Proof sketch.** By what the scanner is inside of. In a string both go on to the same closing quote, and
no comment starts in a mapped string; in a comment all quotes are discarded and all marks rejected. In the
code the token opens a literal for both of them or for neither. -/
theorem step (h : l.Lexed t d rules due) (hscan : rules.Scans t ⟨0, .code⟩ p)
    (hf : Follows t d rules l p) (hp : p.pos < t.size) (hread : d.ReadsAlike rules t p) :
    Follows t d rules l (rules.behind t p) := by
  have hclear := hf.blocks_behind h hscan hp hread
  cases hf with
  | code quotes lines blocks => exact step_code h hscan (.code quotes lines blocks) hp hread
  | quote hiv hstart _ hstop lines blocks =>
    exact step_quote h hp hiv hstart hstop lines
      (hclear blocks (CommentRules.owner_nextToken Lexeme.noConfusion))
  | textBlock hquote hiv hstart hle hend hescaped lines blocks =>
    exact step_textBlock h hp hquote hiv hstart hle hend (hescaped hp) lines
      (hclear blocks (CommentRules.owner_nextToken Lexeme.noConfusion))
  | lineComment hiv hstart hle quotes blocks =>
    exact step_lineComment h hp hiv hstart hle quotes hread
      (hclear blocks (CommentRules.owner_nextToken Lexeme.noConfusion))
  | blockComment hiv hstart hstop quotes lines =>
    exact step_blockComment h hscan hp hiv hstart hstop quotes lines

end Follows

/-! ### The whole scan -/

namespace Lexed

/-- **Wherever the scanner comes through, it stands in what was mapped there**, up to where the scans
read the text in another way. -/
theorem follows (h : l.Lexed t d rules due) {last : Nat}
    (hread : ∀ q, rules.Scans t ⟨0, .code⟩ q → q.pos < last → d.ReadsAlike rules t q)
    (hscan : rules.Scans t ⟨0, .code⟩ p) (hp : p.pos ≤ last) : Follows t d rules l p := by
  induction hscan with
  | refl => exact .code IntervalSet.clear_zero IntervalSet.clear_zero IntervalSet.clear_zero
  | @step q hq hsize ih =>
    have hlt := h.slashed.proper.lt_behind hsize
    exact (ih (by omega)).step h hq hsize (hread q hq (by omega))

/-- An offset lies in at most one of the block comments. -/
lemma eq_of_block (h : l.Lexed t d rules due) {iv' : Interval}
    (hiv : iv ∈ l.blockComments.intervals) (hpos : iv.contains pos = true)
    (hiv' : iv' ∈ l.blockComments.intervals) (hpos' : iv'.contains pos = true) : iv' = iv := by
  rw [Interval.contains_iff] at hpos hpos'
  rcases h.blockTiles.trichotomy (Array.mem_toList_iff.mpr hiv) (Array.mem_toList_iff.mpr hiv') with
    heq | hlt | hlt
  · exact heq
  · omega
  · omega

/-- What the scanner takes for a block comment was mapped as one, with the same start.

**Proof sketch.** The token that holds the offset starts where the scans have followed the scanner
(`follows`). If the token belongs to a block comment, then the scanner stands in it or opens it
there, and either way it was mapped. -/
lemma exists_block_of_scanner (h : l.Lexed t d rules due)
    (hread : ∀ q, rules.Scans t ⟨0, .code⟩ q → q.pos < pos → d.ReadsAlike rules t q)
    (hpos : pos < t.size) {start : Nat} (hstart : d.inBlockComment t pos = some start) :
    ∃ iv ∈ l.blockComments.intervals, iv.contains pos = true ∧ iv.start = start := by
  have hproper := h.slashed.proper
  obtain ⟨q, hscan, h1, h2⟩ := hproper.hasBlockMark.exists_token (p := ⟨0, .code⟩) (Nat.zero_le pos) hpos
  have hq := Nat.lt_of_le_of_lt h1 hpos
  rw [CommentRules.inBlockComment_eq hproper h.comments hscan hq h1 h2] at hstart
  -- a comment does not end in front of its body
  have hle (body : Nat) (hbody : body ≤ t.size) :
      body ≤ (Frame.document t d).blockEnd rules.closer body :=
    (Frame.blockEnd_bounds (Frame.wellFormed_document h.valid d)
      (by rw [h.slashed.closer]; decide) hbody).1
  cases h.follows hread hscan h1 with
  | @code next quotes lines blocks =>
    have htoken := h.slashed.codeToken t next
    have hnext : rules.nextToken t ⟨next, .code⟩ = rules.codeToken t next := rfl
    generalize rules.codeToken t next = token at htoken hnext
    rw [hnext] at hstart
    cases htoken with
    | opener hat =>
      obtain rfl : next = start := Option.some.inj hstart
      have hfits : next + 2 ≤ t.size := Text.lt_size_of_byteAt (Text.hasAt_pair.mp hat).2
      rw [CommentRules.behind_of_token hnext hfits] at h2
      obtain ⟨iv, hiv, rfl, hstop⟩ := h.exists_block_of_code quotes lines blocks hat
      have hbody := hle _ hfits
      exact ⟨iv, hiv, Interval.contains_iff.mpr ⟨h1, by rw [hstop]; exact Nat.lt_of_lt_of_le h2 hbody⟩,
        rfl⟩
    | lineMark => cases hstart
    | textBlock => cases hstart
    | quote => cases hstart
    | other => cases hstart
  | @blockComment next iv hiv hbefore hstop quotes lines =>
    rw [CommentRules.owner_nextToken Lexeme.noConfusion] at hstart
    refine ⟨iv, hiv, Interval.contains_iff.mpr ⟨?_, ?_⟩, Option.some.inj hstart⟩
    · dsimp only at h1
      omega
    · rcases CommentRules.behind_blockComment d iv.start hproper.closer hq with
        ⟨hbehind, hend⟩ | hbehind
      · rw [hbehind] at h2
        rw [hstop, hend]
        exact Nat.lt_of_lt_of_le h2 (hle _ hq)
      · rw [hbehind, ← hstop] at h2
        exact h2
  | quote =>
    rw [CommentRules.owner_nextToken Lexeme.noConfusion] at hstart
    cases hstart
  | textBlock =>
    rw [CommentRules.owner_nextToken Lexeme.noConfusion] at hstart
    cases hstart
  | lineComment =>
    rw [CommentRules.owner_nextToken Lexeme.noConfusion] at hstart
    cases hstart

/-- What was mapped as a block comment the scanner takes for one.

**Proof sketch.** Suppose that the token at the offset belongs to no comment. The mapped comment does
not start in the token (`no_block`), and it does not reach over its start, where the scanner stands
elsewhere. -/
lemma isSome_of_block (h : l.Lexed t d rules due)
    (hread : ∀ q, rules.Scans t ⟨0, .code⟩ q → q.pos < pos → d.ReadsAlike rules t q)
    (hiv : iv ∈ l.blockComments.intervals) (hpos : iv.contains pos = true) :
    (d.inBlockComment t pos).isSome = true := by
  have hproper := h.slashed.proper
  obtain ⟨hstart, hstop⟩ := Interval.contains_iff.mp hpos
  have hsize : pos < t.size :=
    Nat.lt_of_lt_of_le hstop (h.blockTiles.1 iv (Array.mem_toList_iff.mpr hiv)).2.2
  obtain ⟨q, hscan, h1, h2⟩ := hproper.hasBlockMark.exists_token (p := ⟨0, .code⟩) (Nat.zero_le _) hsize
  have hq := Nat.lt_of_le_of_lt h1 hsize
  have hfollows := h.follows hread hscan h1
  rw [CommentRules.inBlockComment_eq hproper h.comments hscan hq h1 h2]
  by_contra hnone
  have howner : (rules.nextToken t q).owner = none := by simpa using hnone
  have hclear : l.blockComments.Clear q.pos := by
    cases hfollows with
    | code quotes lines blocks => exact blocks
    | quote hiv hstart hle hstop lines blocks => exact blocks
    | textBlock hquote hiv hstart hle hend hescaped lines blocks => exact blocks
    | lineComment hiv hstart hle quotes blocks => exact blocks
    | blockComment =>
      rw [CommentRules.owner_nextToken Lexeme.noConfusion] at howner
      cases howner
  -- the comment does not start before the token, so it starts in it
  have hfrom : q.pos ≤ iv.start := by
    refine Nat.le_of_not_lt fun hlt => ?_
    have := hclear iv hiv hlt
    omega
  exact hfollows.no_block h hscan hq howner hiv hfrom (Nat.lt_of_le_of_lt hstart h2) fun hlt =>
    hread q hscan (Nat.lt_of_lt_of_le hlt hstart)

/-- **The two lexers agree in front of where they read apart.** An offset lies in a mapped block comment if
and only if the scanner takes it to lie in one, and both know the same start of it. -/
theorem inBlockComment_iff (h : l.Lexed t d rules due)
    (hread : ∀ q, rules.Scans t ⟨0, .code⟩ q → q.pos < pos → d.ReadsAlike rules t q)
    (hpos : pos < t.size) (start : Nat) :
    d.inBlockComment t pos = some start ↔
      ∃ iv ∈ l.blockComments.intervals, iv.contains pos = true ∧ iv.start = start := by
  refine ⟨h.exists_block_of_scanner hread hpos, ?_⟩
  rintro ⟨iv, hiv, hcontains, rfl⟩
  obtain ⟨start, hstart⟩ := Option.isSome_iff_exists.mp (h.isSome_of_block hread hiv hcontains)
  obtain ⟨iv', hiv', hcontains', rfl⟩ := h.exists_block_of_scanner hread hpos hstart
  rw [hstart, h.eq_of_block hiv hcontains hiv' hcontains']

end Lexed

end Layout

end LexPaint
