import LexPaint.Proofs.BlockScans
import LexPaint.Proofs.LiteralStarts

set_option relaxedAutoImplicit false
set_option autoImplicit false

/-!
# Two lexers for block comments

Block comments are found twice: by a scanner that reads the text forward, token by token, and by three
scans in turn, for strings, for line comments and for block comments. The two agree as long as they read
quotes alike. They do not where a quote is escaped outside strings, where the toggle of a line takes a
quote of the code for one behind a comment mark or the other way round, where three quotes open no text
block, and where a line comment follows a block comment without a gap.

## Main definitions

* `CommentRules.Slashed`: comments between slashes and stars, and behind two slashes.
* `CommentRules.CodeToken`: the tokens of the scanner outside strings and comments.
* `Dialect.ReadsAlike`: the scans read a point of the scanner as the scanner does.
* `Layout.Lexed`: what the three scans have mapped.

## Main results

* `CommentRules.Slashed.codeToken`, `CommentRules.behind_quote`, `CommentRules.behind_textBlock`,
  `CommentRules.behind_lineComment`, `CommentRules.behind_blockComment`: one token of the scanner.
* `Layout.Lexed.exists_string`, `Layout.Lexed.exists_lineComment`, `Layout.Lexed.exists_blockComment`:
  what opens a literal.
-/

namespace LexPaint

/-! ### The scanner -/

namespace CommentRules

variable {r : CommentRules} {t : Text} {d : Dialect} {p : LexPoint} {pos : Nat}

/-- Line comments behind two slashes or none at all, block comments between slashes and stars, and
strings that end with their line. -/
structure Slashed (r : CommentRules) : Prop where
  opener : r.opener = [0x2F, 0x2A]
  closer : r.closer = [0x2A, 0x2F]
  lineMarks : r.lineMarks = [] ∨ r.lineMarks = [[0x2F, 0x2F]]
  oneLine : r.multilineQuotes = false
  everyMark : r.lineFilter = .everywhere

/-- The only mark of line comments is two slashes. -/
lemma Slashed.eq_slashes (h : r.Slashed) {m : Mark} (hm : m ∈ r.lineMarks) : m = [0x2F, 0x2F] := by
  rcases h.lineMarks with hnone | hslashes
  · rw [hnone] at hm
    cases hm
  · rwa [hslashes, List.mem_singleton] at hm

/-- The marks of such rules are not empty. -/
lemma Slashed.proper (h : r.Slashed) : r.Proper := by
  refine ⟨by simp [h.opener], by simp [h.closer], fun m hm => ?_⟩
  rw [h.eq_slashes hm]
  exact List.cons_ne_nil _ _

/-- A scan stays in a set of points that one token does not leave. -/
lemma Scans.mem_of_closed {points : List LexPoint} {q : LexPoint} (h : r.Scans t p q)
    (hp : p ∈ points) (hclosed : ∀ q ∈ points, r.behind t q ∈ points) : q ∈ points := by
  induction h with
  | refl => exact hp
  | step _ _ ih => exact hclosed _ ih

/-- The scanner answers what the token says that holds an offset. -/
lemma inBlockComment_eq (hr : r.Proper) (hd : d.comments = some r) (h : r.Scans t ⟨0, .code⟩ p)
    (hp : p.pos < t.size) (h1 : p.pos ≤ pos) (h2 : pos < (r.behind t p).pos) :
    d.inBlockComment t pos = (r.nextToken t p).owner := by
  unfold Dialect.inBlockComment
  rw [hd]
  refine CommentCursor.query_new_eq_owner hr.hasBlockMark ?_ h1 h2 hp
  rwa [Nat.zero_min]

end CommentRules

namespace Dialect

/-- A quote of the code opens a string for the scans: it is neither escaped nor behind a comment mark,
and three of them open a text block. -/
def TakesQuote (d : Dialect) (rules : CommentRules) (t : Text) (pos : Nat) : Prop :=
  ∀ quote ∈ t.byteAt pos, isQuote quote = true →
    t.escaped pos = false ∧ d.behindLineMark t pos = none ∧
      (rules.textBlocks = true → t.hasAt pos (CommentRules.triple quote) = true →
        d.accepts t pos .textBlock = .ok true)

/-- A line comment mark of the code is where the search for line comments comes by: no mark that the
scanner takes to lie in a block comment overlaps it from before. -/
def TakesMark (d : Dialect) (rules : CommentRules) (t : Text) (pos : Nat) : Prop :=
  ∀ m ∈ rules.lineMarks, t.hasAt pos m = true → ∀ start < pos,
    (∃ m' ∈ rules.lineMarks, t.hasAt start m' = true ∧ pos < start + m'.length) →
      d.inBlockComment t start = none

/-- The scans for strings and line comments read a point of the scanner as the scanner does: quotes and
line comment marks of the code open a string or a comment, and a quote in a line comment opens no
string. -/
def ReadsAlike (d : Dialect) (rules : CommentRules) (t : Text) (p : LexPoint) : Prop :=
  match p.lexeme with
  | .code => d.TakesQuote rules t p.pos ∧ d.TakesMark rules t p.pos
  | .lineComment => t.byteIs isQuote p.pos = true →
    t.escaped p.pos = true ∨ (d.behindLineMark t p.pos).isSome = true
  | _ => True

variable {d : Dialect} {rules : CommentRules} {t : Text} {pos : Nat}

instance : Decidable (d.TakesQuote rules t pos) :=
  inferInstanceAs (Decidable (∀ quote ∈ t.byteAt pos, isQuote quote = true → _ ∧ _ ∧ _))

instance : Decidable (d.TakesMark rules t pos) :=
  inferInstanceAs (Decidable (∀ m ∈ rules.lineMarks, t.hasAt pos m = true → ∀ start < pos, _))

instance {p : LexPoint} : Decidable (d.ReadsAlike rules t p) :=
  match p with
  | ⟨_, .code⟩ => inferInstanceAs (Decidable (_ ∧ _))
  | ⟨_, .lineComment⟩ => inferInstanceAs (Decidable (_ → _ ∨ _))
  | ⟨_, .quote _⟩ | ⟨_, .textBlock _⟩ | ⟨_, .blockComment _⟩ => inferInstanceAs (Decidable True)

end Dialect

/-! ### Bytes of marks -/

namespace Text

variable {t : Text} {pos i : Nat} {b b' : UInt8}

/-- A mark of two bytes occurs where both stand. -/
lemma hasAt_pair :
    t.hasAt pos [b, b'] = true ↔ t.byteAt pos = some b ∧ t.byteAt (pos + 1) = some b' := by
  simp only [hasAt, Bool.and_true, Bool.and_eq_true, byteIs_eq_iff]

/-- A mark of two bytes does not occur at another byte than its first. -/
lemma hasAt_pair_of_ne {c : UInt8} (h : t.byteAt pos = some c) (hne : c ≠ b) :
    t.hasAt pos [b, b'] = false := by
  rw [Bool.eq_false_iff, ne_eq, hasAt_pair, h]
  exact fun hat => hne (Option.some.inj hat.1)

/-- Three quotes in a row are quotes. -/
lemma byteAt_triple (hat : t.hasAt pos (CommentRules.triple b) = true) (h1 : pos ≤ i)
    (h2 : i < pos + 3) : t.byteAt i = some b := by
  obtain ⟨k, rfl⟩ := Nat.exists_eq_add_of_le h1
  have hk : k < 3 := by omega
  have hbyte := hasAt_iff.mp hat k hk
  rcases k with _ | _ | _ | k
  · exact hbyte
  · exact hbyte
  · exact hbyte
  · omega

/-- A test of a known byte. -/
lemma byteIs_of_byteAt {P : UInt8 → Bool} (h : t.byteAt pos = some b) : t.byteIs P pos = P b := by
  rw [byteIs, h]

end Text

/-! ### Ends of strings -/

/-- The end of a string that is open at an offset and keeps to its line. -/
def Text.closingEnd (t : Text) (quote : UInt8) (pos : Nat) : Nat :=
  match t.findClosing quote true pos t.size with
  | .found i => i + 1
  | .lineEnd i => i
  | .unterminated => t.size

namespace Text

variable {t : Text} {quote : UInt8} {pos : Nat}

/-- A string does not end in front of where it is open. -/
lemma le_closingEnd (h : pos ≤ t.size) : pos ≤ t.closingEnd quote pos := by
  unfold closingEnd
  split
  · rename_i i hi
    have := (findClosing_found_bounds hi).1
    omega
  · rename_i i hi
    exact (findClosing_lineEnd_bounds hi).1
  · exact h

/-- A string ends behind its closing quote, at a newline, or with the text. -/
lemma closingEnd_cases (t : Text) (quote : UInt8) (pos : Nat) :
    t.closingEnd quote pos = t.size ∨ t.byteAt (t.closingEnd quote pos) = some newline ∨
      pos < t.closingEnd quote pos ∧ t.byteAt (t.closingEnd quote pos - 1) = some quote := by
  unfold closingEnd
  split
  · rename_i i hi
    obtain ⟨h1, -, h3⟩ := findClosing_found_bounds hi
    exact .inr (.inr ⟨by omega, by rw [Nat.add_sub_cancel]; exact byteIs_eq_iff.mp h3⟩)
  · rename_i i hi
    exact .inr (.inl (findClosing_lineEnd_bounds hi).2.2)
  · exact .inl rfl

/-- A backslash takes the byte behind it along.

**Proof sketch.** The scan goes on two bytes behind the backslash, or at the end if only one byte is
left, and finds nothing there. -/
lemma closingEnd_of_backslash (hpos : pos < t.size) (hb : t.byteIs (· == backslash) pos = true) :
    t.closingEnd quote pos = t.closingEnd quote (pos + min 2 (t.size - pos)) := by
  have hstep : t.findClosing quote true pos t.size = t.findClosing quote true (pos + 2) t.size := by
    rw [findClosing, if_pos hpos, if_pos hb]
  unfold closingEnd
  rw [hstep]
  rcases Nat.lt_or_ge (pos + 2) (t.size + 1) with hlt | hge
  · rw [Nat.min_eq_left (by omega)]
  · have hend (pos : Nat) (h : t.size ≤ pos) :
        t.findClosing quote true pos t.size = .unterminated := by
      rw [findClosing, if_neg (by omega)]
    rw [hend _ (by omega), hend _ (by omega)]

/-- A string ends behind its closing quote. -/
lemma closingEnd_of_quote (hpos : pos < t.size) (hb : t.byteIs (· == backslash) pos = false)
    (hq : t.byteIs (· == quote) pos = true) : t.closingEnd quote pos = pos + 1 := by
  unfold closingEnd
  rw [findClosing, if_pos hpos, if_neg (by simp [hb]), if_pos hq]

/-- A string ends at the end of its line. -/
lemma closingEnd_of_newline (hpos : pos < t.size) (hb : t.byteIs (· == backslash) pos = false)
    (hq : t.byteIs (· == quote) pos = false) (hn : t.byteIs (· == newline) pos = true) :
    t.closingEnd quote pos = pos := by
  unfold closingEnd
  rw [findClosing, if_pos hpos, if_neg (by simp [hb]), if_neg (by simp [hq]), if_pos (by simpa using hn)]

/-- Any other byte is part of the string. -/
lemma closingEnd_of_other (hpos : pos < t.size) (hb : t.byteIs (· == backslash) pos = false)
    (hq : t.byteIs (· == quote) pos = false) (hn : t.byteIs (· == newline) pos = false) :
    t.closingEnd quote pos = t.closingEnd quote (pos + 1) := by
  have hstep : t.findClosing quote true pos t.size = t.findClosing quote true (pos + 1) t.size := by
    rw [findClosing, if_pos hpos, if_neg (by simp [hb]), if_neg (by simp [hq]),
      if_neg (by simp [hn])]
  unfold closingEnd
  rw [hstep]

end Text

namespace Frame

variable {t : Text} {d : Dialect} {closer : Mark} {pos : Nat}

/-- A quote opens a text block that ends behind the next three unescaped quotes, or a string of its
line.

**Proof sketch.** By cases on whether the quote opens a text block. If it does, then the search
behind the three quotes gives its end (`Text.findUnescaped_end`). If not, then the condition, the
three quotes or the test of the dialect has failed. -/
lemma stringAt_eq_ok (ht : t.Valid) {due : Condition} {quote : UInt8} (hquote : isQuote quote = true)
    {iv : Interval} (h : (document t d).stringAt due true quote pos = .ok iv) :
    (due = .textBlock ∧ t.hasAt pos (CommentRules.triple quote) = true ∧
      t.UnescapedEnd (CommentRules.triple quote) (pos + 3) iv.stop) ∨
    (due = .textBlock → t.hasAt pos (CommentRules.triple quote) = true →
      d.accepts t pos .textBlock = .ok false) ∧ iv.stop = t.closingEnd quote (pos + 1) := by
  obtain ⟨opens, hopens, h⟩ := bind_eq_ok.mp h
  unfold opensTextBlock at hopens
  cases opens with
  | true =>
    cases h
    split at hopens
    · rename_i hcond
      simp only [Bool.and_eq_true, decide_eq_true_eq] at hcond
      obtain ⟨⟨hdue, -⟩, hat⟩ := hcond
      have hat : t.hasAt pos (CommentRules.triple quote) = true := hat
      have hthird := Text.hasAt_iff.mp hat 2 (Nat.lt_succ_self 2)
      have hascii : quote < 0x80 := isQuote_ascii hquote
      exact .inl ⟨hdue, hat, Text.findUnescaped_end ht (isPlain_triple hquote)
        (Text.isBoundary_succ_of_ascii ht hthird hascii)⟩
    · cases hopens
  | false =>
    cases h
    refine .inr ⟨fun hdue hat => ?_, rfl⟩
    have hfits : pos + 3 ≤ t.size := Text.le_size_of_hasAt hat (by simp [CommentRules.triple])
    rw [if_pos (by simp only [Bool.and_eq_true, decide_eq_true_eq]; exact ⟨⟨hdue, hfits⟩, hat⟩)]
      at hopens
    obtain ⟨offset, hoffset, haccepts⟩ := bind_eq_ok.mp hopens
    obtain rfl : pos = offset := minus_eq_ok_iff.mp hoffset
    rw [hdue] at haccepts
    exact haccepts

/-- A block comment ends behind the close mark that stands at an offset, or goes on. -/
lemma blockEnd_of_hasAt (hc : closer ≠ []) (hat : t.hasAt pos closer = true) :
    (document t d).blockEnd closer pos = pos + closer.length := by
  have hfind : t.find closer pos t.size = some pos :=
    Text.find_eq_some_iff.mpr ⟨Nat.le_refl _, Text.le_size_of_hasAt hat hc, hat,
      fun j h1 h2 => by omega⟩
  unfold blockEnd
  rw [show (document t d).text.find closer pos (document t d).hi = some pos from hfind]

/-- Where no close mark stands, the search for it may as well start one byte on. -/
lemma blockEnd_succ (hat : t.hasAt pos closer = false) :
    (document t d).blockEnd closer pos = (document t d).blockEnd closer (pos + 1) := by
  have hfind : t.find closer pos t.size = t.find closer (pos + 1) t.size := by
    cases h : t.find closer (pos + 1) t.size with
    | some i =>
      obtain ⟨h1, h2, h3, h4⟩ := Text.find_eq_some_iff.mp h
      refine Text.find_eq_some_iff.mpr ⟨by omega, h2, h3, fun j hj hji => ?_⟩
      rcases Nat.eq_or_lt_of_le hj with rfl | hlt
      · exact hat
      · exact h4 j hlt hji
    | none =>
      refine Text.find_eq_none_iff.mpr fun j hj hend => ?_
      rcases Nat.eq_or_lt_of_le hj with rfl | hlt
      · exact hat
      · exact Text.find_eq_none_iff.mp h j hlt hend
  unfold blockEnd
  rw [show (document t d).text.find closer pos (document t d).hi =
    (document t d).text.find closer (pos + 1) (document t d).hi from hfind]

end Frame

/-! ### Tokens -/

namespace CommentRules

variable {r : CommentRules} {t : Text} {quote : UInt8} {pos stop : Nat}

/-- The tokens outside strings and comments. -/
inductive CodeToken (r : CommentRules) (t : Text) (pos : Nat) : Token → Prop
  | opener (hat : t.hasAt pos [0x2F, 0x2A] = true) : CodeToken r t pos ⟨2, .blockComment pos, some pos⟩
  | lineMark (hm : [0x2F, 0x2F] ∈ r.lineMarks) (hat : t.hasAt pos [0x2F, 0x2F] = true) :
    CodeToken r t pos ⟨2, .lineComment, none⟩
  | textBlock {quote : UInt8} (hbyte : t.byteAt pos = some quote) (hquote : isQuote quote = true)
    (hblocks : r.textBlocks = true) (hat : t.hasAt pos (triple quote) = true) :
    CodeToken r t pos ⟨3, .textBlock quote, none⟩
  | quote {quote : UInt8} (hbyte : t.byteAt pos = some quote) (hquote : isQuote quote = true)
    (hsingle : r.textBlocks = true → t.hasAt pos (triple quote) = false) :
    CodeToken r t pos ⟨1, .quote quote, none⟩
  | other (hquote : t.byteIs isQuote pos = false) (hopener : t.hasAt pos [0x2F, 0x2A] = false)
    (hmarks : ∀ m ∈ r.lineMarks, t.hasAt pos m = false) : CodeToken r t pos ⟨1, .code, none⟩

/-- The token at an offset is one of those listed: the program tries them in this order. -/
lemma Slashed.codeToken (h : r.Slashed) (t : Text) (pos : Nat) :
    CodeToken r t pos (r.codeToken t pos) := by
  have hadmits : r.lineFilter.admits t pos = true := by
    rw [h.everyMark]
    rfl
  unfold CommentRules.codeToken
  rw [h.opener]
  split
  · rename_i hat
    exact .opener hat
  · rename_i hopener
    split
    · rename_i m hm
      obtain ⟨hfind, -⟩ := Option.mem_filter_iff.mp hm
      have hmem := List.mem_of_find?_eq_some hfind
      obtain rfl := h.eq_slashes hmem
      exact .lineMark hmem (List.find?_some hfind)
    · rename_i hnone
      -- every mark is admitted, so none of them stands here
      have hmarks : ∀ m ∈ r.lineMarks, t.hasAt pos m = false := by
        cases hfind : r.lineMarks.find? (t.hasAt pos) with
        | some m => simp [hfind, hadmits] at hnone
        | none => simpa using hfind
      split
      · rename_i quote hq
        obtain ⟨hbyte, hquote⟩ := Option.mem_filter_iff.mp hq
        split
        · rename_i hblock
          rw [Bool.and_eq_true] at hblock
          exact .textBlock hbyte hquote hblock.1 hblock.2
        · rename_i hblock
          refine .quote hbyte hquote fun htext => ?_
          simpa [htext] using hblock
      · rename_i hq
        refine .other ?_ (by simpa using hopener) hmarks
        rw [Bool.eq_false_iff]
        intro hbyte
        obtain ⟨b, hb, hquote⟩ := Text.byteIs_iff.mp hbyte
        simp [hb, hquote] at hq

end CommentRules

namespace CommentRules

variable {φ : Type} [FiltersMarks φ] {r : CommentRules φ} {t : Text} {quote : UInt8} {pos stop : Nat}

/-- A token that fits into the text leads as far as it is long. -/
lemma behind_of_token {p : LexPoint} {length : Nat} {next : Lexeme} {owner : Option Nat}
    (h : r.nextToken t p = ⟨length, next, owner⟩) (hfits : p.pos + length ≤ t.size) :
    r.behind t p = ⟨p.pos + length, next⟩ := by
  unfold behind
  rw [h]
  dsimp only
  rw [Nat.min_eq_left (by omega)]

/-- One token on in a string: the string goes on, it ends, or the line does.

**Proof sketch.** By cases on the byte: a backslash, the closing quote, a newline, or another one.
The end of the string is computed by the same cases. -/
lemma behind_quote (hr : r.multilineQuotes = false) (hpos : pos < t.size) :
    (∃ pos', r.behind t ⟨pos, .quote quote⟩ = ⟨pos', .quote quote⟩ ∧ pos < pos' ∧ pos' ≤ t.size ∧
      t.closingEnd quote pos = t.closingEnd quote pos') ∨
    r.behind t ⟨pos, .quote quote⟩ = ⟨pos + 1, .code⟩ ∧ (t.closingEnd quote pos = pos + 1 ∨
      t.closingEnd quote pos = pos ∧ t.byteAt pos = some newline) := by
  cases hb : t.byteIs (· == backslash) pos with
  | true =>
    have htoken : r.nextToken t ⟨pos, .quote quote⟩ = ⟨2, .quote quote, none⟩ := by
      simp [nextToken, hb]
    refine .inl ⟨pos + min 2 (t.size - pos), ?_, by omega, by omega,
      Text.closingEnd_of_backslash hpos hb⟩
    rw [behind, htoken]
  | false =>
    cases hq : t.byteIs (· == quote) pos with
    | true =>
      have htoken : r.nextToken t ⟨pos, .quote quote⟩ = ⟨1, .code, none⟩ := by
        simp [nextToken, hb, hq]
      exact .inr ⟨behind_of_token htoken hpos, .inl (Text.closingEnd_of_quote hpos hb hq)⟩
    | false =>
      cases hn : t.byteIs (· == newline) pos with
      | true =>
        have htoken : r.nextToken t ⟨pos, .quote quote⟩ = ⟨1, .code, none⟩ := by
          simp [nextToken, hb, hq, hn, hr]
        exact .inr ⟨behind_of_token htoken hpos,
          .inr ⟨Text.closingEnd_of_newline hpos hb hq hn, Text.byteIs_eq_iff.mp hn⟩⟩
      | false =>
        have htoken : r.nextToken t ⟨pos, .quote quote⟩ = ⟨1, .quote quote, none⟩ := by
          simp [nextToken, hb, hq, hn]
        exact .inl ⟨pos + 1, behind_of_token htoken hpos, Nat.lt_succ_self pos, hpos,
          Text.closingEnd_of_other hpos hb hq hn⟩

/-- One token on in a text block: it goes on, at an offset that no backslash escapes, or it ends.

**Proof sketch.** A backslash at an unescaped offset escapes the byte behind it, so no unescaped mark
starts in the two. Three quotes at an unescaped offset are the first unescaped ones. Any other byte
is passed. -/
lemma behind_textBlock (hquote : isQuote quote = true) (hpos : pos < t.size)
    (hescaped : t.escaped pos = false) (hend : t.UnescapedEnd (triple quote) pos stop) :
    (∃ pos', r.behind t ⟨pos, .textBlock quote⟩ = ⟨pos', .textBlock quote⟩ ∧ pos < pos' ∧
      pos' ≤ stop ∧ t.UnescapedEnd (triple quote) pos' stop ∧
      (pos' < t.size → t.escaped pos' = false)) ∨
    r.behind t ⟨pos, .textBlock quote⟩ = ⟨stop, .code⟩ ∧ pos < stop := by
  have hfirst {i : Nat} (hat : t.hasAt i (triple quote) = true) : t.byteAt i = some quote :=
    Text.hasAt_iff.mp hat 0 (Nat.zero_lt_succ 2)
  cases hb : t.byteIs (· == backslash) pos with
  | true =>
    have htoken : r.nextToken t ⟨pos, .textBlock quote⟩ = ⟨2, .textBlock quote, none⟩ := by
      simp [nextToken, hb]
    -- the backslash is no quote, and it escapes the byte behind it
    have hnext : t.escaped (pos + 1) = true := by rw [Text.escaped_succ hb, hescaped, Bool.not_false]
    have hskip : t.UnescapedEnd (triple quote) (pos + min 2 (t.size - pos)) stop := by
      refine hend.skip (by omega) fun j h1 h2 hat => ?_
      obtain rfl | rfl : j = pos ∨ j = pos + 1 := by omega
      · have hbyte := hfirst hat
        rw [Text.byteIs_eq_iff.mp hb] at hbyte
        obtain rfl := Option.some.inj hbyte
        exact absurd hquote (by decide)
      · exact hnext
    refine .inl ⟨pos + min 2 (t.size - pos), ?_, by omega, hskip.le_stop (by omega), hskip,
      fun hlt => ?_⟩
    · rw [behind, htoken]
    · rw [show pos + min 2 (t.size - pos) = pos + 1 + 1 by omega]
      cases hb' : t.byteIs (· == backslash) (pos + 1) with
      | true => rw [Text.escaped_succ hb', hnext, Bool.not_true]
      | false => exact Text.escaped_succ_of_not hb'
  | false =>
    cases hat : t.hasAt pos (triple quote) with
    | true =>
      have htoken : r.nextToken t ⟨pos, .textBlock quote⟩ = ⟨3, .code, none⟩ := by
        simp [nextToken, hb, hat]
      have hfits : pos + 3 ≤ t.size := Text.le_size_of_hasAt hat (by simp [triple])
      -- the first unescaped quotes stand right here
      obtain rfl : stop = pos + 3 := hend.stop_eq hat hescaped
      exact .inr ⟨behind_of_token htoken hfits, by omega⟩
    | false =>
      have htoken : r.nextToken t ⟨pos, .textBlock quote⟩ = ⟨1, .textBlock quote, none⟩ := by
        simp [nextToken, hb, hat]
      have hskip : t.UnescapedEnd (triple quote) (pos + 1) stop := by
        refine hend.skip (Nat.le_succ pos) fun j h1 h2 hat' => ?_
        obtain rfl : j = pos := by omega
        rw [hat] at hat'
        cases hat'
      exact .inl ⟨pos + 1, behind_of_token htoken hpos, Nat.lt_succ_self pos, hskip.le_stop hpos,
        hskip, fun _ => Text.escaped_succ_of_not hb⟩

/-- One token on in a line comment: the line goes on, or it ends. -/
lemma behind_lineComment (hpos : pos < t.size) :
    r.behind t ⟨pos, .lineComment⟩ =
      ⟨pos + 1, if t.byteIs (· == newline) pos then .code else .lineComment⟩ := by
  unfold behind nextToken
  dsimp only
  split <;> simp <;> omega

/-- One token on in a block comment: it goes on, or it ends.

**Proof sketch.** By cases on whether the close mark stands at the offset. -/
lemma behind_blockComment (d : Dialect) (start : Nat) (hr : r.closer ≠ []) (hpos : pos < t.size) :
    r.behind t ⟨pos, .blockComment start⟩ = ⟨pos + 1, .blockComment start⟩ ∧
      (Frame.document t d).blockEnd r.closer pos = (Frame.document t d).blockEnd r.closer (pos + 1) ∨
    r.behind t ⟨pos, .blockComment start⟩ = ⟨(Frame.document t d).blockEnd r.closer pos, .code⟩ := by
  unfold behind nextToken
  dsimp only
  by_cases hat : t.hasAt pos r.closer = true
  · have hfits := Text.le_size_of_hasAt hat hr
    rw [if_pos hat, Frame.blockEnd_of_hasAt hr hat]
    dsimp only
    rw [Nat.min_eq_left (by omega)]
    exact .inr rfl
  · rw [Bool.not_eq_true] at hat
    rw [if_neg (by simp [hat])]
    dsimp only
    rw [Nat.min_eq_left (by omega)]
    exact .inl ⟨rfl, Frame.blockEnd_succ hat⟩

/-- Outside the code a token belongs to the comment that the scanner is inside of.

**Proof sketch.** By cases on the lexeme and on the branches of the program. Only in the code does a
token open a comment. -/
lemma owner_nextToken {p : LexPoint} (h : p.lexeme ≠ .code) :
    (r.nextToken t p).owner = p.lexeme.owner := by
  obtain ⟨pos, lexeme⟩ := p
  unfold nextToken
  cases lexeme with
  | code => exact absurd rfl h
  | quote quote =>
    dsimp only
    repeat' split
    all_goals rfl
  | textBlock quote =>
    dsimp only
    repeat' split
    all_goals rfl
  | lineComment =>
    dsimp only
    split <;> rfl
  | blockComment start =>
    dsimp only
    split <;> rfl

end CommentRules

/-! ### What was mapped -/

/-- No interval that starts before an offset reaches over it. -/
def IntervalSet.Clear (s : IntervalSet) (pos : Nat) : Prop :=
  ∀ iv ∈ s.intervals, iv.start < pos → iv.stop ≤ pos

namespace IntervalSet

variable {s : IntervalSet} {pos pos' lo hi : Nat} {iv : Interval}

/-- Nothing starts in front of the text. -/
lemma clear_zero : s.Clear 0 :=
  fun _ _ hlt => absurd hlt (Nat.not_lt_zero _)

/-- An offset stays clear from one to the next if nothing starts in between. -/
lemma Clear.mono (h : s.Clear pos) (hle : pos ≤ pos')
    (hnone : ∀ iv ∈ s.intervals, pos ≤ iv.start → iv.start < pos' → False) : s.Clear pos' := by
  intro iv hiv hlt
  rcases Nat.lt_or_ge iv.start pos with h1 | h1
  · exact Nat.le_trans (h iv hiv h1) hle
  · exact (hnone iv hiv h1 hlt).elim

/-- What covers a clear offset starts there. -/
lemma Clear.start_eq (h : s.Clear pos) (hiv : iv ∈ s.intervals) (h1 : iv.start ≤ pos)
    (h2 : pos < iv.stop) : iv.start = pos := by
  rcases Nat.eq_or_lt_of_le h1 with heq | hlt
  · exact heq
  · have := h iv hiv hlt
    omega

/-- Intervals side by side are clear at the end of each of them. -/
lemma clear_stop (htiles : Tiles lo hi s.intervals.toList) (hiv : iv ∈ s.intervals) :
    s.Clear iv.stop := by
  intro iv' hiv' hlt
  rcases Tiles.trichotomy htiles (Array.mem_toList_iff.mpr hiv) (Array.mem_toList_iff.mpr hiv') with
    rfl | h | h
  · exact Nat.le_refl _
  · omega
  · have := (htiles.1 iv (Array.mem_toList_iff.mpr hiv)).2.1
    omega

end IntervalSet

namespace Layout

/-- What the scans for strings, line comments and block comments have mapped in a document without
other literals. -/
structure Lexed (t : Text) (d : Dialect) (rules : CommentRules) (due : Condition) (l : Layout) :
    Prop where
  valid : t.Valid
  comments : d.comments = some rules
  slashed : rules.Slashed
  blocks_due : rules.textBlocks = true ↔ due = .textBlock
  unconditional : d.tests.lookup .unconditional = none
  quoteTiles : Tiles 0 t.size l.quotes.intervals.toList
  lineTiles : Tiles 0 t.size l.lineComments.intervals.toList
  blockTiles : Tiles 0 t.size l.blockComments.intervals.toList
  quotes : Frame.QuotesRead t d l t.size l.quotes.intervals
  strings : ∀ iv ∈ l.quotes.intervals, iv.start < t.size ∧
    ∃ quote, t.byteAt iv.start = some quote ∧ isQuote quote = true ∧
      (Frame.document t d).stringAt due true quote iv.start = .ok iv
  lines : Frame.MarksRead t d l .unconditional rules.lineMarks t.size l.lineComments.intervals
  blocks : Frame.BlocksRead t d l .unconditional rules.opener rules.closer t.size
    l.blockComments.intervals
  noComposite : ∀ pos, l.composite.inEither pos = none
  noEmbedded : l.embedded.intervals = #[]
  starts : l.commentStarts.toList = l.lineComments.intervals.toList.map Interval.start

namespace Lexed

variable {t : Text} {d : Dialect} {rules : CommentRules} {due : Condition} {l : Layout}
variable {pos : Nat} {iv : Interval} {m : Mark}

/-- The containment query for strings answers whether a string covers the offset. -/
lemma isSome_quotes (h : l.Lexed t d rules due) :
    (l.quotes.inString pos).isSome = true ↔ l.quotes.Covers pos :=
  IntervalSet.isSome_inString_iff h.quoteTiles.nested

/-- The dialect accepts every mark. -/
lemma accepts (h : l.Lexed t d rules due) : d.accepts t pos .unconditional = .ok true := by
  rw [Dialect.accepts, h.unconditional]
  rfl

/-- A string starts at a quote. -/
lemma quote_of_string (h : l.Lexed t d rules due) (hiv : iv ∈ l.quotes.intervals) :
    t.byteIs isQuote iv.start = true :=
  (h.quotes.opened iv hiv).1

/-- A string ends behind a quote, at a newline, or with the text.

**Proof sketch.** By cases on how it was read (`Frame.stringAt_eq_ok`): a text block ends behind
three quotes, another string as `Text.closingEnd_cases` says. -/
lemma stop_of_string (h : l.Lexed t d rules due) (hiv : iv ∈ l.quotes.intervals) :
    iv.stop = t.size ∨ t.byteAt iv.stop = some newline ∨ t.byteIs isQuote (iv.stop - 1) = true := by
  obtain ⟨-, quote, -, hquote, hstring⟩ := h.strings iv hiv
  have hquoted {i : Nat} (hbyte : t.byteAt i = some quote) : t.byteIs isQuote i = true :=
    Text.byteIs_iff.mpr ⟨quote, hbyte, hquote⟩
  rcases Frame.stringAt_eq_ok h.valid hquote hstring with ⟨-, -, hend⟩ | ⟨-, hstop⟩
  · rcases hend with ⟨i, -, hat, -, hstop, -⟩ | ⟨-, hstop⟩
    · refine .inr (.inr (hquoted ?_))
      rw [hstop]
      exact Text.hasAt_iff.mp hat 2 (Nat.lt_succ_self 2)
    · exact .inl hstop
  · rcases Text.closingEnd_cases t quote (iv.start + 1) with hend | hend | ⟨-, hend⟩
    · exact .inl (hstop.trans hend)
    · exact .inr (.inl (hstop ▸ hend))
    · exact .inr (.inr (hquoted (hstop ▸ hend)))

/-- A quote opens a string if it is not escaped and stands behind no comment mark, and the scanner is in
no block comment.

**Proof sketch.** The scan has a string on the quote or discards it, and each reason to discard it is
excluded. -/
lemma exists_string (h : l.Lexed t d rules due) (hquote : t.byteIs isQuote pos = true)
    (hescaped : t.escaped pos = false) (hbehind : d.behindLineMark t pos = none)
    (hblock : d.inBlockComment t pos = none) :
    ∃ iv ∈ l.quotes.intervals, iv.start ≤ pos ∧ pos < iv.stop := by
  rcases h.quotes.covered pos (Text.lt_size_of_byteIs hquote) hquote with ⟨iv, hiv, hc⟩ | hdiscards
  · exact ⟨iv, hiv, Interval.contains_iff.mp hc⟩
  · rcases hdiscards with hd | hd | hd | hd
    · rw [hescaped] at hd
      cases hd
    · rw [h.noComposite] at hd
      cases hd
    · rw [hbehind] at hd
      cases hd
    · rw [hblock] at hd
      cases hd

/-- A line comment starts at a mark outside strings and block comments, and ends with its line. -/
lemma of_lineComment (h : l.Lexed t d rules due) (hiv : iv ∈ l.lineComments.intervals) :
    t.hasAt iv.start [0x2F, 0x2F] = true ∧ iv.stop = t.lineEnd iv.start ∧
      ¬ l.quotes.Covers iv.start ∧ d.inBlockComment t iv.start = none := by
  obtain ⟨hany, hstop, hkeeps⟩ := h.lines.opened iv hiv
  simp only [Dialect.Rejects, not_or, h.isSome_quotes, Bool.not_eq_true, Option.isSome_eq_false_iff,
    Option.isNone_iff_eq_none] at hkeeps
  obtain ⟨m, hm, hat⟩ := List.any_eq_true.mp hany
  obtain rfl := h.slashed.eq_slashes hm
  exact ⟨hat, hstop, hkeeps.1, hkeeps.2.2.1⟩

/-- A mark opens a line comment if no mark that overlaps it from before lies in a string or in what the
scanner takes for a block comment.

**Proof sketch.** The scan has a comment on the mark or has rejected one that overlaps it from
before, and each reason to reject it is excluded. -/
lemma exists_lineComment (h : l.Lexed t d rules due) (hm : m ∈ rules.lineMarks)
    (hat : t.hasAt pos m = true)
    (hclear : ∀ start ≤ pos, (∃ m' ∈ rules.lineMarks, t.hasAt start m' = true ∧
      pos < start + m'.length) → ¬ l.quotes.Covers start ∧ d.inBlockComment t start = none) :
    ∃ iv ∈ l.lineComments.intervals, iv.start ≤ pos ∧ pos < iv.stop := by
  have hfits := Text.le_size_of_hasAt hat (h.slashed.proper.lineMarks m hm)
  have hlength := List.length_pos_iff.mpr (h.slashed.proper.lineMarks m hm)
  rcases h.lines.covered pos (by omega) m hm hat with
    ⟨iv, hiv, hc⟩ | ⟨start, m', hm', hat', hle, hlt, hrejects⟩
  · exact ⟨iv, hiv, Interval.contains_iff.mp hc⟩
  · obtain ⟨hquotes, hblock⟩ := hclear start hle ⟨m', hm', hat', hlt⟩
    rcases hrejects with hr | hr | hr | hr
    · exact (hquotes (h.isSome_quotes.mp hr)).elim
    · rw [h.noComposite] at hr
      cases hr
    · rw [hblock] at hr
      cases hr
    · rw [h.accepts] at hr
      cases hr

/-- An offset stands behind the start of a line comment on its line. -/
def BehindStart (t : Text) (l : Layout) (pos : Nat) : Prop :=
  ∃ iv ∈ l.lineComments.intervals, iv.start ≤ pos ∧
    ∀ i, iv.start ≤ i → i < pos → t.byteAt i ≠ some newline

/-- An open mark is declined in a string and behind the start of a line comment. Other reasons do not
occur in a document without other literals. -/
lemma declines_iff (h : l.Lexed t d rules due) (hb : t.isBoundary pos = true) :
    d.Declines t l .unconditional pos ↔ l.quotes.Covers pos ∨ BehindStart t l pos := by
  have hsorted : l.commentStarts.toList.Pairwise (· ≤ ·) := by
    rw [h.starts, List.pairwise_map]
    exact h.lineTiles.nested.imp And.left
  have hmem (start : Nat) : start ∈ l.commentStarts ↔
      ∃ iv ∈ l.lineComments.intervals, iv.start = start := by
    rw [← Array.mem_toList_iff, h.starts, List.mem_map]
    simp only [Array.mem_toList_iff]
  have hstarts : ∀ start ∈ l.commentStarts, t.isBoundary start = true := by
    intro start hstart
    obtain ⟨iv, hiv, rfl⟩ := (hmem start).mp hstart
    exact Text.isBoundary_of_hasAt (by decide) (h.of_lineComment hiv).1
  obtain ⟨answer, hanswer, -⟩ :=
    Frame.afterCommentStart_ensures (f := .document t d) l.commentStarts hb hstarts
  have hafter : (Frame.document t d).afterCommentStart l.commentStarts pos = .ok true ↔
      BehindStart t l pos := by
    rw [hanswer, Except.ok.injEq, Frame.afterCommentStart_iff hsorted hanswer]
    constructor
    · rintro ⟨start, hstart, hle, hno⟩
      obtain ⟨iv, hiv, rfl⟩ := (hmem start).mp hstart
      exact ⟨iv, hiv, hle, hno⟩
    · rintro ⟨iv, hiv, hle, hno⟩
      exact ⟨iv.start, (hmem _).mpr ⟨iv, hiv, rfl⟩, hle, hno⟩
  unfold Dialect.Declines
  rw [h.isSome_quotes, h.noComposite, IntervalSet.inString_of_empty h.noEmbedded, hafter, h.accepts]
  simp

/-- A block comment starts at an open mark outside strings and line comments. -/
lemma of_blockComment (h : l.Lexed t d rules due) (hiv : iv ∈ l.blockComments.intervals) :
    t.hasAt iv.start [0x2F, 0x2A] = true ∧
      iv.stop = (Frame.document t d).blockEnd rules.closer (iv.start + 2) ∧
      ¬ l.quotes.Covers iv.start ∧ ¬ BehindStart t l iv.start := by
  obtain ⟨hblock, hkeeps⟩ := h.blocks.opened iv hiv
  have hat : t.hasAt iv.start [0x2F, 0x2A] = true := h.slashed.opener ▸ hblock.opens
  rw [h.declines_iff (Text.isBoundary_of_hasAt (by decide) hat), not_or] at hkeeps
  refine ⟨hat, ?_, hkeeps⟩
  rw [hblock.stop_eq, h.slashed.opener]
  rfl

/-- An open mark outside strings and behind no line comment lies in a block comment.

**Proof sketch.** The scan has a comment on the mark or declines one that overlaps it from before.
Two open marks do not overlap, so that would be the mark itself, and it is not declined. -/
lemma exists_blockComment (h : l.Lexed t d rules due) (hat : t.hasAt pos [0x2F, 0x2A] = true)
    (hquotes : ¬ l.quotes.Covers pos) (hlines : ¬ BehindStart t l pos) :
    ∃ iv ∈ l.blockComments.intervals, iv.start ≤ pos ∧ pos < iv.stop := by
  have hfits := Text.le_size_of_hasAt hat (by decide)
  have hread := h.blocks.covered pos (by simp only [List.length_cons] at hfits; omega)
    (h.slashed.opener.symm ▸ hat)
  rcases hread with ⟨iv, hiv, hc⟩ | ⟨start, hat', hle, hlt, hdeclines⟩
  · exact ⟨iv, hiv, Interval.contains_iff.mp hc⟩
  · rw [h.slashed.opener] at hat' hlt
    -- two open marks do not overlap
    have hstart : start = pos := by
      rcases Nat.eq_or_lt_of_le hle with heq | hgt
      · exact heq
      · obtain rfl : pos = start + 1 := by
          simp only [List.length_cons, List.length_nil] at hlt
          omega
        have hslash := (Text.hasAt_pair.mp hat).1
        rw [(Text.hasAt_pair.mp hat').2] at hslash
        exact absurd (Option.some.inj hslash) (by decide)
    subst hstart
    rcases (h.declines_iff (Text.isBoundary_of_hasAt (by decide) hat)).mp hdeclines with hd | hd
    · exact (hquotes hd).elim
    · exact (hlines hd).elim

end Lexed

end Layout

end LexPaint
