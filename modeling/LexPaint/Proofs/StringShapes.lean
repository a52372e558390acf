import LexPaint.Proofs.LiteralEnds
import LexPaint.Proofs.LocalPasses
import LexPaint.Proofs.SortFrames

set_option relaxedAutoImplicit false
set_option autoImplicit false

/-!
# The shapes of strings

A string starts at a quote that is not escaped and ends at the first place that may end it. An ordinary
string ends behind the next unescaped quote of its sort, and one that keeps to its line ends before an
unescaped newline at the latest. A text block starts with three quotes and ends behind the next three
that are not escaped. What nothing ends reaches to the end of its scope.

The two sorts are ended by different scans, the one by stepping over escapes and the other by counting
backslashes. The shapes are the same for both, because both scans find the first unescaped mark.

## Main definitions

* `Text.IsQuoted`, `Text.IsTextBlock`: the ranges that a quote, or three of them, opens.
* `Interval.IsString`: an interval that has the shape of a string.

## Main results

* `Frame.stringAt_isString`: what an unescaped quote opens is a string.
* `Primitive.runAll_isString`: a program maps strings only.
* `Painter.full_strings`: every string that any language maps, in a document or an embedded section.
-/

namespace LexPaint

open CommentRules (triple)

/-! ### Shapes -/

/-- The range of a scope up to `hi` that a quote opens at `start`: it goes up to the first unescaped
quote of the same sort and over it. A range without one reaches to the end of the scope, or to the first
unescaped newline if strings keep to their line. -/
structure Text.IsQuoted (t : Text) (hi : Nat) (singleLine : Bool) (quote : UInt8) (start stop : Nat) :
    Prop where
  minimal : t.Free [quote] (start + 1) (stop - 1)
  oneLine : singleLine = true → t.Free [newline] (start + 1) stop
  ends : (start + 1 < stop ∧ t.Bare [quote] (stop - 1)) ∨
    (t.Free [quote] (start + 1) stop ∧ (stop = hi ∨ (singleLine = true ∧ t.Bare [newline] stop)))

/-- The range of a scope up to `hi` that three quotes open at `start`: it goes up to the first three
unescaped quotes behind them and over those, or to the end of the scope. -/
structure Text.IsTextBlock (t : Text) (hi : Nat) (quote : UInt8) (start stop : Nat) : Prop where
  opens : t.hasAt start (triple quote) = true
  ends : (∃ i, start + 3 ≤ i ∧ t.Bare (triple quote) i ∧ t.Free (triple quote) (start + 3) i ∧
      stop = i + 3) ∨
    ((∀ i, start + 3 ≤ i → i + 3 ≤ hi → ¬ t.Bare (triple quote) i) ∧ stop = hi)

/-- An interval of a scope up to `hi` that an unescaped quote opens, and that has the shape of its kind. -/
def Interval.IsString (iv : Interval) (t : Text) (hi : Nat) (singleLine : Bool) : Prop :=
  ∃ quote, isQuote quote = true ∧ t.Bare [quote] iv.start ∧ iv.start < iv.stop ∧ iv.stop ≤ hi ∧
    ((iv.kind = .textBlock ∧ t.IsTextBlock hi quote iv.start iv.stop) ∨
      (iv.kind = (if quote == doubleQuote then .double else .single) ∧
        t.IsQuoted hi singleLine quote iv.start iv.stop))

/-! ### One string -/

namespace Frame

variable {f : Frame} {condition : Condition} {singleLine : Bool} {quote : UInt8} {pos : Nat}

/-- The range of an ordinary string has its shape. **Proof sketch.** The search for the closing quote
steps over escapes, so what it finds is the first unescaped quote, or the first unescaped newline if
that ends the string. -/
lemma isQuoted_quoteEnd (hq : isQuote quote = true) (hbare : f.text.Bare [quote] pos) :
    f.text.IsQuoted f.hi singleLine quote pos (f.quoteEnd singleLine quote pos) := by
  have hne : quote ≠ backslash := by
    rintro rfl
    exact absurd hq (by decide)
  have hesc : f.text.escaped (pos + 1) = false := by
    refine Text.escaped_succ_of_not (Bool.eq_false_iff.mpr fun hb => hne ?_)
    exact Option.some.inj (hbare.byteAt.symm.trans (Text.byteIs_eq_iff.mp hb))
  have hfits : (f.text.findClosing quote singleLine (pos + 1) f.hi).Fits f.text quote singleLine
      (pos + 1) f.hi := Text.findClosing_fits hne hesc
  unfold quoteEnd
  split
  · rename_i i hi
    rw [hi] at hfits
    have hle := (Text.findClosing_found_bounds hi).1
    obtain ⟨hclose, hfree, hline⟩ := hfits
    refine ⟨hfree, fun hsingle => ?_, .inl ⟨by omega, hclose⟩⟩
    refine (hline hsingle).trans (Text.free_succ fun hnewline => ?_)
    obtain rfl := Option.some.inj (hclose.byteAt.symm.trans hnewline.byteAt)
    exact absurd hq (by decide)
  · rename_i i hi
    rw [hi] at hfits
    obtain ⟨hsingle, hnewline, hfree, hline⟩ := hfits
    exact ⟨hfree.mono (Nat.le_refl _) (Nat.sub_le ..), hline, .inr ⟨hfree, .inr ⟨hsingle, hnewline⟩⟩⟩
  · rename_i hi
    rw [hi] at hfits
    exact ⟨hfits.1.mono (Nat.le_refl _) (Nat.sub_le ..), hfits.2, .inr ⟨hfits.1, .inl rfl⟩⟩

/-- The range of a text block has its shape. -/
lemma isTextBlock_textBlockEnd (hf : f.WellFormed) (hq : isQuote quote = true)
    (hat : f.text.hasAt pos (triple quote) = true) :
    f.text.IsTextBlock f.hi quote pos (f.textBlockEnd quote pos) := by
  have hplain := isPlain_triple hq
  refine ⟨hat, ?_⟩
  unfold textBlockEnd
  split
  · rename_i i hi
    obtain ⟨hle, -, hbare⟩ := Text.findUnescaped_bounds hi
    exact .inl ⟨i, hle, hbare, Text.free_of_findUnescaped hi, rfl⟩
  · rename_i hnone
    have hb : f.text.isBoundary (pos + 3) = true := Text.isBoundary_add_length hf.valid hplain hat
    exact .inr ⟨(Text.findUnescaped_eq_none_iff hf.valid hplain hb).mp hnone, rfl⟩

/-- What an unescaped quote of a scope opens is a string. Three quotes that the dialect does not take
for the start of a text block open an ordinary string.

**Proof sketch.** By cases on whether the dialect takes three quotes for the start of a text block. -/
lemma stringAt_isString (hf : f.WellFormed) (hq : isQuote quote = true)
    (hbare : f.text.Bare [quote] pos) (hlo : f.lo ≤ pos) (hhi : pos < f.hi) {iv : Interval}
    (h : f.stringAt condition singleLine quote pos = .ok iv) :
    iv.IsString f.text f.hi singleLine := by
  have hb := Text.isBoundary_of_ascii hbare.byteAt (isQuote_ascii hq)
  obtain ⟨rfl, hne, hle, -⟩ := (stringAt_ensures hf condition singleLine quote hlo hhi hb).elim h
  refine ⟨quote, hq, hbare, hne, hle, ?_⟩
  obtain ⟨opens, hopens, h⟩ := bind_eq_ok.mp h
  cases opens with
  | true =>
    unfold opensTextBlock at hopens
    split at hopens
    · rename_i hblock
      rw [Bool.and_eq_true] at hblock
      rw [← Except.ok.inj h]
      exact .inl ⟨rfl, isTextBlock_textBlockEnd hf hq hblock.2⟩
    · cases hopens
  | false =>
    rw [← Except.ok.inj h]
    exact .inr ⟨rfl, isQuoted_quoteEnd hq hbare⟩

end Frame

/-! ### Programs -/

/-- A primitive that maps the strings of a scope maps strings.

**Proof sketch.** The set holds what was there and what the scan has found. -/
lemma Pass.mapQuotes_isString {s : Scene} {f : Frame} {p q : Pass} {singleLine : Bool}
    (hf : f.WellFormed) (hp : ∀ iv ∈ p.layout.quotes.intervals, iv.IsString f.text f.hi singleLine)
    (h : p.mapQuotes s f singleLine = .ok q) :
    ∀ iv ∈ q.layout.quotes.intervals, iv.IsString f.text f.hi singleLine := by
  obtain ⟨_, -, h⟩ := bind_eq_ok.mp h
  obtain ⟨harvest, hharvest, h⟩ := bind_eq_ok.mp h
  cases h
  rw [layout_repairIf]
  intro iv hiv
  rcases IntervalSet.mem_addAll.mp hiv with hfound | hiv
  · obtain ⟨hlo, hhi, quote, hbare, hq, hstring⟩ := Frame.quotes_stringAt hharvest iv hfound
    exact Frame.stringAt_isString hf hq hbare hlo hhi hstring
  · exact hp iv hiv

namespace Primitive

/-- Whether a primitive maps no strings of its scope, or those of one mode. -/
def keepsMode (singleLine : Bool) : Primitive → Bool
  | .quotes mode => mode == singleLine
  | primitive => !mapsSort .quotes primitive

/-- A primitive maps the strings of one mode, or none. -/
lemma keepsMode_cases {singleLine : Bool} {primitive : Primitive}
    (h : keepsMode singleLine primitive = true) :
    primitive = .quotes singleLine ∨ mapsSort .quotes primitive = false := by
  unfold keepsMode at h
  split at h
  · exact .inl (congrArg Primitive.quotes (beq_iff_eq.mp h))
  · exact .inr (by simpa using h)

/-- A program maps strings only.

**Proof sketch.** Each primitive keeps it: one maps strings, all others leave the set alone. -/
theorem runAll_isString {s : Scene} {f : Frame} {p q : Pass} {singleLine : Bool}
    {program : List Primitive} (hmode : program.all (keepsMode singleLine) = true) (hf : f.WellFormed)
    (hp : ∀ iv ∈ p.layout.quotes.intervals, iv.IsString f.text f.hi singleLine)
    (h : runAll s program f p = .ok q) :
    ∀ iv ∈ q.layout.quotes.intervals, iv.IsString f.text f.hi singleLine := by
  refine runAll_keeps (P := fun p => ∀ iv ∈ p.layout.quotes.intervals,
    iv.IsString f.text f.hi singleLine) (fun primitive hmem p₁ p₂ hp₁ h₁ => ?_) hp h
  rcases keepsMode_cases (List.all_eq_true.mp hmode primitive hmem) with rfl | hother
  · simp only [run] at h₁
    exact Pass.mapQuotes_isString hf hp₁ h₁
  · have hsame : p₂.layout.quotes = p₁.layout.quotes :=
      Option.some.inj (run_sort primitive f p₁ p₂ hother h₁)
    rwa [hsame]

end Primitive

/-- All strings that a language maps in its own scope end in the same way. -/
lemma Profile.all_keepsMode {profile : Profile} (hprofile : profile ∈ Profile.builtIn)
    {singleLine : Bool} (hquotes : .quotes singleLine ∈ profile.program) :
    profile.program.all (Primitive.keepsMode singleLine) = true := by
  have hall : builtIn.all (fun p =>
      [true, false].any fun mode => p.program.all (Primitive.keepsMode mode)) = true := by
    decide +kernel
  obtain ⟨mode, -, hmode⟩ := List.any_eq_true.mp (List.all_eq_true.mp hall profile hprofile)
  -- the strings of the program show which of the two modes it is
  have hsame : (singleLine == mode) = true := List.all_eq_true.mp hmode _ hquotes
  rwa [← beq_iff_eq.mp hsame] at hmode

namespace Painter

/-- **Every string has its shape.** Take a language that maps strings. A painter whose sets are in order
gives every text a full pass, and after it every interval of the strings starts at an unescaped quote
and has the shape of its kind, where the end of the scope is the end of the text. The same holds of the
strings of any scope that the language lexes, such as an embedded section, in a full or a local pass.

**Proof sketch.** The strings of a scope are what the quotes of the scope open that are not refused, and
an escaped quote is refused. Nothing else in the program touches them. -/
theorem full_strings {profile : Profile} {singleLine : Bool} (hprofile : profile ∈ Profile.builtIn)
    (hquotes : .quotes singleLine ∈ profile.program) :
    (∀ (doc : Buffer) (p : Painter), doc.text.Valid → p.layout.HistoryOrdered →
      ∃ p' doc', p.full profile doc = .ok (p', doc') ∧
        ∀ iv ∈ p'.layout.quotes.intervals, iv.IsString doc.text doc.text.size singleLine) ∧
      ∀ (s : Scene) (f : Frame) (p q : Pass), f.WellFormed → p.layout.quotes.intervals = #[] →
        Primitive.runAll s profile.program f p = .ok q →
          ∀ iv ∈ q.layout.quotes.intervals, iv.IsString f.text f.hi singleLine := by
  have hscope : ∀ (s : Scene) (f : Frame) (p q : Pass), f.WellFormed →
      p.layout.quotes.intervals = #[] → Primitive.runAll s profile.program f p = .ok q →
        ∀ iv ∈ q.layout.quotes.intervals, iv.IsString f.text f.hi singleLine := by
    intro s f p q hf hnone hrun
    refine Primitive.runAll_isString (Profile.all_keepsMode hprofile hquotes) hf ?_ hrun
    simp [hnone]
  refine ⟨fun doc p hdoc hp => ?_, hscope⟩
  obtain ⟨⟨p', doc'⟩, hfull, -⟩ := full_ensures (Profile.sound_of_mem_builtIn hprofile) hdoc hp
  refine ⟨p', doc', hfull, ?_⟩
  obtain ⟨pass, hpass, hfull⟩ := bind_eq_ok.mp hfull
  cases hfull
  exact hscope _ _ _ _ (Frame.wellFormed_document hdoc profile.dialect) rfl hpass

/-- Between the tags stand a text block with escaped quotes in it, a string that an unescaped newline
ends behind an escaped one, and a string whose last quote is escaped at the end of the scope. -/
theorem full_strings_java :
    ∃ (t : Text) (s : Scene) (f : Frame) (p q : Pass) (p' : Painter) (doc' : Buffer),
      t = Text.ofString "<p>\"\"\"\n\\\"\"\" \"\"\" 'c\\\nd\n\"e\\\"</p>" ∧
      f = ⟨t, 3, 26, t.between 3 26, Profile.java.dialect, false⟩ ∧
      p.layout.quotes.intervals = #[] ∧
      Primitive.runAll s Profile.java.program f p = .ok q ∧
      q.layout.quotes.intervals = #[⟨3, 15, .textBlock⟩, ⟨16, 21, .single⟩, ⟨22, 26, .double⟩] ∧
      (∀ iv ∈ q.layout.quotes.intervals, iv.IsString t 26 true) ∧
      Painter.new.full .java (Buffer.new t) = .ok (p', doc') ∧
      ∀ iv ∈ p'.layout.quotes.intervals, iv.IsString t t.size true := by
  let t := Text.ofString "<p>\"\"\"\n\\\"\"\" \"\"\" 'c\\\nd\n\"e\\\"</p>"
  let f : Frame := ⟨t, 3, 26, t.between 3 26, Profile.java.dialect, false⟩
  let s : Scene := ⟨t, 0, 30, false⟩
  let p : Pass := ⟨Buffer.new t, .empty, .empty, .unconditional, none⟩
  have ht : t.Valid := Text.valid_ofString _
  have hf : f.WellFormed := ⟨ht, by decide, by decide +kernel, by decide +kernel, rfl⟩
  have hrun : (do
      let q ← Primitive.runAll s Profile.java.program f p
      demand (q.layout.quotes.intervals =
        (#[⟨3, 15, .textBlock⟩, ⟨16, 21, .single⟩, ⟨22, 26, .double⟩] : Array Interval)) .outOfRange) =
        .ok () := by
    decide +kernel
  obtain ⟨q, hq, hrun⟩ := bind_eq_ok.mp hrun
  have hjava : Profile.java ∈ Profile.builtIn := by simp [Profile.builtIn]
  have hquotes : .quotes true ∈ Profile.java.program := by simp [Profile.java]
  obtain ⟨hdocument, hscope⟩ := full_strings hjava hquotes
  obtain ⟨p', doc', hfull, hstrings⟩ :=
    hdocument (Buffer.new t) .new ht Layout.historyOrdered_empty
  exact ⟨t, s, f, p, q, p', doc', rfl, rfl, rfl, hq, of_decide_eq_true (demand_eq_ok_iff.mp hrun),
    hscope s f p q hf rfl hq, hfull, hstrings⟩

end Painter

end LexPaint
