import LexPaint.Proofs.LocalPasses
import LexPaint.Proofs.QuoteScans
import LexPaint.Proofs.Shading
import LexPaint.Proofs.SortFrames

set_option relaxedAutoImplicit false
set_option autoImplicit false

/-!
# Strings and line comments beside each other

A string hides the comment marks in it, and a line comment hides the quotes in it. In a full pass the
strings are found first, with a toggle that starts afresh on every line in place of the comments. So
the two hide each other as they should unless the toggle is wrong about a mark, which takes a line
that starts inside a string or a block comment, or a quote that is escaped outside of strings.

## Main definitions

* `Profile.Reads`: programs that map strings, and behind them line comments, once each.

## Main results

* `Profile.Reads.runPass`: the layout of a full pass explains its own strings and line comments.
* `Painter.full_separates`: no line comment starts inside a string, and where a string starts inside
  a line comment, the toggle takes the mark of the comment for quoted.
-/

namespace LexPaint

/-! ### Programs -/

/-- The program maps strings and behind them line comments, once each, after the heredocs and the
quote operators. The marks of the comments are looked for under a condition. -/
def Profile.Reads (profile : Profile) (due : Condition) (marks : List Mark) : Prop :=
  ∃ before singleLine mid after,
    profile.program = before ++ .quotes singleLine :: (mid ++ .lineComments marks :: after) ∧
    (mid = [] ∧ due = .unconditional ∨ mid = [.setCondition due]) ∧
    (∀ sort ∈ [RepairReason.quotes, .lineComments], Primitive.mapsSortAll sort before = false) ∧
    ∀ sort ∈ [RepairReason.quotes, .lineComments, .heredocs, .quoteOperators],
      Primitive.mapsSortAll sort after = false

section Programs

variable {t : Text} {d : Dialect} {l l' : Layout} {p q : Pass} {s : Scene}

/-- The reasons to discard a quote depend on the heredocs and the quote operators only. -/
lemma Frame.QuotesRead.congr {last : Nat} {found : Array Interval}
    (h : Frame.QuotesRead t d l last found)
    (hl : ∀ pos, l.composite.inEither pos = l'.composite.inEither pos) :
    Frame.QuotesRead t d l' last found := by
  have hsame : ∀ pos, d.Discards t l' pos ↔ d.Discards t l pos := fun pos => by
    unfold Dialect.Discards
    rw [hl]
  exact ⟨fun iv hiv => (h.opened iv hiv).imp_right fun hd hd' => hd ((hsame _).mp hd'),
    fun pos hpos hq => (h.covered pos hpos hq).imp_right (hsame pos).mpr⟩

/-- The reasons to reject a mark depend on what is mapped before the line comments.

**Proof sketch.** The reasons ask the strings and the two sets of composite literals only. -/
lemma Frame.MarksRead.congr {condition : Condition} {marks : List Mark} {last : Nat}
    {found : Array Interval} (h : Frame.MarksRead t d l condition marks last found)
    (hquotes : ∀ pos, l.quotes.inString pos = l'.quotes.inString pos)
    (hcomposite : ∀ pos, l.composite.inEither pos = l'.composite.inEither pos) :
    Frame.MarksRead t d l' condition marks last found := by
  have hsame : ∀ pos, d.Rejects t l' condition pos ↔ d.Rejects t l condition pos := fun pos => by
    unfold Dialect.Rejects
    rw [hquotes, hcomposite]
  refine ⟨fun iv hiv => ?_, fun pos hpos m hm hat => ?_⟩
  · obtain ⟨h1, h2, h3⟩ := h.opened iv hiv
    exact ⟨h1, h2, fun hr => h3 ((hsame _).mp hr)⟩
  · refine (h.covered pos hpos m hm hat).imp_right ?_
    rintro ⟨start, m', hm', hat', h1, h2, hr⟩
    exact ⟨start, m', hm', hat', h1, h2, (hsame _).mpr hr⟩

/-- A set that a program leaves alone. -/
lemma Primitive.runAll_quotes {program : List Primitive} {f : Frame}
    (hs : mapsSortAll .quotes program = false) (h : runAll s program f p = .ok q) :
    q.layout.quotes = p.layout.quotes :=
  Option.some.inj (runAll_sort program f p q hs h)

/-- What maps no line comments leaves their set alone. -/
lemma Primitive.runAll_lineComments {program : List Primitive} {f : Frame}
    (hs : mapsSortAll .lineComments program = false) (h : runAll s program f p = .ok q) :
    q.layout.lineComments = p.layout.lineComments :=
  Option.some.inj (runAll_sort program f p q hs h)

/-- What maps neither heredocs nor quote operators leaves their sets alone. -/
lemma Primitive.runAll_composite {program : List Primitive} {f : Frame}
    (hheredocs : mapsSortAll .heredocs program = false)
    (hoperators : mapsSortAll .quoteOperators program = false)
    (h : runAll s program f p = .ok q) : q.layout.composite = p.layout.composite :=
  CompositeSet.ext (Option.some.inj (runAll_sort program f p q hheredocs h))
    (Option.some.inj (runAll_sort program f p q hoperators h))

/-- What the scan for strings finds in a full pass.

**Proof sketch.** The set was empty, so it holds what the scan has found, in the order of the text. -/
lemma Pass.mapQuotes_reads (ht : t.Valid) (hd : ∀ rules, d.comments = some rules → rules.Proper)
    {singleLine : Bool} (hnone : p.layout.quotes.intervals = #[])
    (h : p.mapQuotes (.document t) (.document t d) singleLine = .ok q) :
    Frame.QuotesRead t d p.layout t.size q.layout.quotes.intervals ∧
      Tiles 0 t.size q.layout.quotes.intervals.toList ∧ q.condition = .unconditional ∧
      q.layout.composite = p.layout.composite ∧ q.layout.lineComments = p.layout.lineComments := by
  obtain ⟨_, -, h⟩ := bind_eq_ok.mp h
  obtain ⟨harvest, hharvest, h⟩ := bind_eq_ok.mp h
  obtain ⟨htiles, -⟩ := (Frame.quotes_ensures (Frame.wellFormed_document ht d) _ _ singleLine).elim
    hharvest
  dsimp only at h
  rw [repairIf_of_not_detect rfl] at h
  cases h
  have hitems := IntervalSet.toList_addAll hnone (htiles.nested.imp And.left)
  have hfound : (p.layout.quotes.addAll harvest.items).intervals = harvest.items :=
    Array.ext' hitems
  refine ⟨?_, ?_, rfl, rfl, rfl⟩
  · show Frame.QuotesRead t d p.layout t.size (p.layout.quotes.addAll harvest.items).intervals
    rw [hfound]
    exact Frame.quotes_spec ht hd hharvest
  · show Tiles 0 t.size (p.layout.quotes.addAll harvest.items).intervals.toList
    rw [hitems]
    exact htiles

/-- What the scan for line comments finds in a full pass.

**Proof sketch.** The set was empty, so it holds what the scan has found, in the order of the text. -/
lemma Pass.mapLineComments_reads (ht : t.Valid)
    (hd : ∀ rules, d.comments = some rules → rules.Proper) {marks : List Mark}
    (hmarks : ∀ m ∈ marks, m.IsPlain) (hnone : p.layout.lineComments.intervals = #[])
    (h : p.mapLineComments (.document t) (.document t d) marks = .ok q) :
    Frame.MarksRead t d p.layout p.condition marks t.size q.layout.lineComments.intervals ∧
      q.layout.quotes = p.layout.quotes ∧ q.layout.composite = p.layout.composite := by
  obtain ⟨harvest, hharvest, h⟩ := bind_eq_ok.mp h
  obtain ⟨htiles, -⟩ := (Frame.lineComments_ensures (Frame.wellFormed_document ht d) _ _
    hmarks).elim hharvest
  dsimp only at h
  rw [repairIf_of_not_detect rfl] at h
  cases h
  have hfound : (p.layout.lineComments.addAll harvest.items).intervals = harvest.items :=
    Array.ext' (IntervalSet.toList_addAll hnone (htiles.nested.imp And.left))
  refine ⟨?_, rfl, rfl⟩
  show Frame.MarksRead t d p.layout p.condition marks t.size
    (p.layout.lineComments.addAll harvest.items).intervals
  rw [hfound]
  exact Frame.lineComments_spec ht hd hmarks hharvest

variable {profile : Profile} {doc : Buffer}

/-- **The layout of a full pass explains its own strings and line comments.** Every quote of the
document lies in a string or is discarded, and every mark lies in a line comment or overlaps a mark
that is rejected, as judged with everything that the pass has mapped.

**Proof sketch.** What runs behind the two scans maps other sorts of literals, so the sets that the
scans have looked at are those of the final layout. -/
theorem Profile.Reads.runPass {due : Condition} {marks : List Mark}
    (hreads : profile.Reads due marks) (hdoc : doc.text.Valid)
    (hcomments : ∀ rules, profile.dialect.comments = some rules → rules.Proper)
    (hmarks : ∀ m ∈ marks, m.IsPlain) {layout : Layout} {nested : IntervalSet} {pass : Pass}
    (hpass : profile.runPass doc 0 doc.size false layout nested = .ok pass) :
    Tiles 0 doc.text.size pass.layout.quotes.intervals.toList ∧
      Frame.QuotesRead doc.text profile.dialect pass.layout doc.text.size
        pass.layout.quotes.intervals ∧
      Frame.MarksRead doc.text profile.dialect pass.layout due marks doc.text.size
        pass.layout.lineComments.intervals := by
  obtain ⟨before, singleLine, mid, after, hprogram, hmid, hbefore, hafter⟩ := hreads
  have hscene : (⟨doc.text, 0, 0 + doc.size, false⟩ : Scene) = .document doc.text := by
    rw [Nat.zero_add]
    rfl
  unfold Profile.runPass at hpass
  dsimp only at hpass
  rw [hprogram, hscene] at hpass
  obtain ⟨p₁, p₂, h₁, h₂, hpass, hquiet₁, hquiet₂⟩ := Primitive.runAll_split rfl rfl hpass
  obtain ⟨p₃, p₄, h₃, h₄, h₅, hquiet₃, -⟩ := Primitive.runAll_split rfl hquiet₂ hpass
  simp only [Primitive.run] at h₂ h₄
  have hquotes₁ : p₁.layout.quotes.intervals = #[] := by
    rw [Primitive.runAll_quotes (hbefore _ (by simp)) h₁]
    rfl
  have hlines₁ : p₁.layout.lineComments.intervals = #[] := by
    rw [Primitive.runAll_lineComments (hbefore _ (by simp)) h₁]
    rfl
  obtain ⟨hread, htiles, hcondition, hcomposite, hlines⟩ :=
    Pass.mapQuotes_reads hdoc hcomments hquotes₁ h₂
  have hbetween : p₃.layout = p₂.layout ∧ p₃.condition = due := by
    rcases hmid with ⟨rfl, rfl⟩ | rfl
    · simp only [Primitive.runAll] at h₃
      cases h₃
      exact ⟨rfl, hcondition⟩
    · rw [Primitive.runAll_cons hquiet₂] at h₃
      simp only [Primitive.run, Primitive.runAll] at h₃
      obtain ⟨p', hp', h₃⟩ := bind_eq_ok.mp h₃
      cases hp'
      cases h₃
      exact ⟨rfl, rfl⟩
  have hlines₃ : p₃.layout.lineComments.intervals = #[] := by
    rw [hbetween.1, hlines, hlines₁]
  obtain ⟨hmarksRead, hquotes₄, hcomposite₄⟩ :=
    Pass.mapLineComments_reads hdoc hcomments hmarks hlines₃ h₄
  have hquotes : pass.layout.quotes = p₂.layout.quotes := by
    rw [Primitive.runAll_quotes (hafter _ (by simp)) h₅, hquotes₄, hbetween.1]
  have hfinal : pass.layout.composite = p₂.layout.composite := by
    rw [Primitive.runAll_composite (hafter _ (by simp)) (hafter _ (by simp)) h₅, hcomposite₄,
      hbetween.1]
  rw [hbetween.2, hbetween.1] at hmarksRead
  rw [hquotes, Primitive.runAll_lineComments (hafter _ (by simp)) h₅]
  refine ⟨htiles, hread.congr fun pos => ?_, hmarksRead.congr (fun pos => ?_) fun pos => ?_⟩
  · rw [hfinal, hcomposite]
  · rw [hquotes]
  · rw [hfinal]

end Programs

/-! ### Profiles -/

/-- The test of a candidate answers what the filter says. -/
lemma MarkFilter.admits?_eq_ok {filter : MarkFilter} {t : Text} {pos : Nat} {accepted : Bool}
    (h : filter.admits? t pos = .ok accepted) : accepted = filter.admits t pos := by
  cases filter with
  | everywhere =>
    cases h
    rfl
  | notBehindDollar =>
    obtain ⟨_, -, h⟩ := bind_eq_ok.mp h
    exact (Except.ok.inj h).symm
  | notAttribute =>
    obtain ⟨_, -, h⟩ := bind_eq_ok.mp h
    exact (Except.ok.inj h).symm

namespace Profile

/-- A profile whose program maps strings and line comments under the marks of its dialect, and whose
test for these marks is the filter of the dialect. -/
structure Comments (profile : Profile) (due : Condition) : Prop where
  reads : profile.Reads due profile.dialect.lineMarks
  marks : ∀ m ∈ profile.dialect.lineMarks, m.IsPlain ∧ m.head?.any isQuote = false
  rules : ∀ rules ∈ profile.dialect.comments, rules.Proper
  filter : profile.dialect.lineFilter = .everywhere ∨
    profile.dialect.tests.lookup due = some (.filteredMark profile.dialect.lineFilter)

/-- A line comment mark that is accepted passes the filter.

**Proof sketch.** The filter either admits every mark or is the test that the dialect makes. -/
lemma Comments.admits {profile : Profile} {due : Condition} (h : profile.Comments due) {t : Text}
    {pos : Nat} (hb : t.isBoundary pos = true)
    (haccepts : profile.dialect.accepts t pos due ≠ .ok false) :
    profile.dialect.lineFilter.admits t pos = true := by
  rcases h.filter with hfilter | hfilter
  · rw [hfilter]
    rfl
  · obtain ⟨accepted, haccepted, -⟩ := profile.dialect.accepts_ensures hb due
    have hholds := haccepted
    unfold Dialect.accepts at hholds
    rw [hfilter] at hholds
    rw [← MarkFilter.admits?_eq_ok hholds]
    rw [haccepted] at haccepts
    cases accepted with
    | true => rfl
    | false => exact absurd rfl haccepts

/-- No quote stands where a mark stands.

**Proof sketch.** The first byte of a mark is no quote. -/
lemma Comments.not_quote {profile : Profile} {due : Condition} (h : profile.Comments due) {t : Text}
    {mark : Mark} (hm : mark ∈ profile.dialect.lineMarks) {pos : Nat}
    (hat : t.hasAt pos mark = true) : t.byteIs isQuote pos = false := by
  obtain ⟨hplain, hhead⟩ := h.marks mark hm
  have hlength : 0 < mark.length := List.length_pos_iff.mpr hplain.1
  have hbyte := Text.hasAt_iff.mp hat 0 hlength
  rw [Nat.add_zero] at hbyte
  rw [List.head?_eq_getElem?, List.getElem?_eq_getElem hlength] at hhead
  by_contra hq
  rw [Bool.not_eq_false] at hq
  obtain ⟨b, hb, hqb⟩ := Text.byteIs_iff.mp hq
  rw [hbyte] at hb
  obtain rfl := Option.some.inj hb
  rw [Option.any_some, hqb] at hhead
  cases hhead

/-- These languages look for comment marks anywhere.

**Proof sketch.** By inspection of the five programs. -/
lemma comments_unconditional {profile : Profile}
    (h : profile ∈ [java, csharp, javascript, python, r]) : profile.Comments .unconditional := by
  simp only [List.mem_cons, List.not_mem_nil, or_false] at h
  rcases h with rfl | rfl | rfl | rfl | rfl
  · exact ⟨⟨[.setCondition .textBlock], true, [], _, rfl, .inl ⟨rfl, rfl⟩, by decide, by decide⟩,
      by decide, by decide, .inl rfl⟩
  · exact ⟨⟨[], true, [], _, rfl, .inl ⟨rfl, rfl⟩, by decide, by decide⟩, by decide, by decide,
      .inl rfl⟩
  · exact ⟨⟨[], true, [], _, rfl, .inl ⟨rfl, rfl⟩, by decide, by decide⟩, by decide, by decide,
      .inl rfl⟩
  · exact ⟨⟨[.setCondition .textBlock], true, [], _, rfl, .inl ⟨rfl, rfl⟩, by decide, by decide⟩,
      by decide, by decide, .inl rfl⟩
  · exact ⟨⟨[], false, [], _, rfl, .inl ⟨rfl, rfl⟩, by decide, by decide⟩, by decide, by decide,
      .inl rfl⟩

/-- In these languages some marks open no comment. -/
lemma comments_commentMark {profile : Profile} (h : profile ∈ [perl, phpCode]) :
    profile.Comments .commentMark := by
  simp only [List.mem_cons, List.not_mem_nil, or_false] at h
  rcases h with rfl | rfl
  · exact ⟨⟨[.heredocs, .quoteOperators], false, [.setCondition .commentMark], _, rfl, .inr rfl,
      by decide, by decide⟩, by decide, by decide, .inr rfl⟩
  · exact ⟨⟨[.heredocs], false, [.setCondition .commentMark], _, rfl, .inr rfl, by decide,
      by decide⟩, by decide, by decide, .inr rfl⟩

end Profile

/-! ### Painters -/

namespace Painter

variable {profile : Profile} {due : Condition} {doc doc' : Buffer} {p p' : Painter}

/-- The layout that a full pass leaves explains its own strings and line comments. -/
lemma reads_of_full (h : profile.Comments due) (hdoc : doc.text.Valid)
    (hfull : p.full profile doc = .ok (p', doc')) :
    p'.layout.quotes.Nested ∧
      Frame.QuotesRead doc.text profile.dialect p'.layout doc.text.size
        p'.layout.quotes.intervals ∧
      Frame.MarksRead doc.text profile.dialect p'.layout due profile.dialect.lineMarks
        doc.text.size p'.layout.lineComments.intervals := by
  obtain ⟨pass, hpass, hfull⟩ := bind_eq_ok.mp hfull
  cases hfull
  obtain ⟨htiles, hquotes, hmarks⟩ := h.reads.runPass hdoc h.rules (fun m hm => (h.marks m hm).1) hpass
  exact ⟨htiles.nested, hquotes.congr fun _ => rfl, hmarks.congr (fun _ => rfl) fun _ => rfl⟩

/-- A line comment does not start inside a string. -/
lemma not_contains_comment (h : profile.Comments due) (hdoc : doc.text.Valid)
    (hfull : p.full profile doc = .ok (p', doc')) {q c : Interval}
    (hq : q ∈ p'.layout.quotes.intervals) (hc : c ∈ p'.layout.lineComments.intervals) :
    q.contains c.start = false := by
  obtain ⟨hnested, -, hmarks⟩ := reads_of_full h hdoc hfull
  by_contra hcontains
  rw [Bool.not_eq_false] at hcontains
  refine (hmarks.opened c hc).2.2 (.inl ?_)
  rw [IntervalSet.isSome_inString]
  exact (IntervalSet.isSome_intervalAt_iff hnested).mpr ⟨q, hq, hcontains⟩

/-- Where a string starts inside a line comment, the toggle takes the mark of the comment for
quoted.

**Proof sketch.** The quote of the string was kept, so it stands behind no unquoted mark of its line.
The mark of the comment is a mark of that line. -/
lemma inQuotesOnLine_of_contains (h : profile.Comments due) (hdoc : doc.text.Valid)
    (hfull : p.full profile doc = .ok (p', doc')) {q c : Interval}
    (hq : q ∈ p'.layout.quotes.intervals) (hc : c ∈ p'.layout.lineComments.intervals)
    (hcontains : c.contains q.start = true) : doc.text.inQuotesOnLine c.start = true := by
  obtain ⟨-, hquotes, hmarks⟩ := reads_of_full h hdoc hfull
  obtain ⟨hquote, hkeeps⟩ := hquotes.opened q hq
  obtain ⟨hany, hstop, hkept⟩ := hmarks.opened c hc
  obtain ⟨hle, hlt⟩ := Interval.contains_iff.mp hcontains
  obtain ⟨mark, hmark, hat⟩ := List.any_eq_true.mp hany
  have hplain := (h.marks mark hmark).1
  have hne : c.start ≠ q.start := by
    intro heq
    rw [← heq, h.not_quote hmark hat] at hquote
    cases hquote
  have hbehind : profile.dialect.behindLineMark doc.text q.start = none := by
    cases hbehind : profile.dialect.behindLineMark doc.text q.start with
    | none => rfl
    | some m => exact absurd (.inr (.inr (.inl (by rw [hbehind]; rfl)))) hkeeps
  have hsize : q.start ≤ doc.text.size := by
    have := doc.text.lineEnd_le_size c.start
    omega
  refine Text.inQuotesOnLine_of_behindMarkOnLine (fun m hm pos => h.not_quote hm) hsize hbehind
    (Nat.lt_of_le_of_ne hle hne) (fun j hj hjq => ?_) hany ?_
  · exact Text.byteAt_ne_newline_of_lt_lineEnd hj (by omega)
  · refine h.admits (Text.isBoundary_of_hasAt hplain hat) fun hrejected => ?_
    exact hkept (.inr (.inr (.inr hrejected)))

/-- **Strings and line comments beside each other.** In Python, R, Perl and PHP code every text gets
a full pass, and after it no line comment starts inside a string. A string starts inside a line
comment only where the toggle, which starts afresh on every line, takes the mark of that comment for
quoted.

**Proof sketch.** The first part is what the scan for line comments finds: a mark in a string is
rejected. For the second part a quote in a line comment stands behind its mark, so the scan for
strings would have discarded it if the toggle did not take the mark for quoted. -/
theorem full_separates
    (hprofile : profile ∈ [Profile.python, Profile.r, Profile.perl, Profile.phpCode])
    (hdoc : doc.text.Valid) :
    (∃ p' doc', Painter.new.full profile doc = .ok (p', doc')) ∧
      ∀ (p p' : Painter) (doc' : Buffer), p.full profile doc = .ok (p', doc') →
        ∀ q ∈ p'.layout.quotes.intervals, ∀ c ∈ p'.layout.lineComments.intervals,
          q.contains c.start = false ∧
            (c.contains q.start = true → doc.text.inQuotesOnLine c.start = true) := by
  have hcomments : ∃ due, profile.Comments due := by
    simp only [List.mem_cons, List.not_mem_nil, or_false] at hprofile
    rcases hprofile with rfl | rfl | rfl | rfl
    · exact ⟨_, Profile.comments_unconditional (by simp)⟩
    · exact ⟨_, Profile.comments_unconditional (by simp)⟩
    · exact ⟨_, Profile.comments_commentMark (by simp)⟩
    · exact ⟨_, Profile.comments_commentMark (by simp)⟩
  obtain ⟨due, hcomments⟩ := hcomments
  have hsound : profile.Sound := by
    refine Profile.sound_of_mem_builtIn ?_
    simp only [List.mem_cons, List.not_mem_nil, or_false] at hprofile
    rcases hprofile with rfl | rfl | rfl | rfl <;> simp [Profile.builtIn]
  refine ⟨?_, fun p p' doc' hfull q hq c hc => ⟨not_contains_comment hcomments hdoc hfull hq hc,
    inQuotesOnLine_of_contains hcomments hdoc hfull hq hc⟩⟩
  obtain ⟨r, hr, -⟩ := full_ensures (p := .new) hsound hdoc Layout.historyOrdered_empty
  exact ⟨r.1, r.2, hr⟩

/-- A mark inside a string opens no comment. -/
theorem full_separates_python :
    ∃ p' doc', Painter.new.full .python (Buffer.new (Text.ofString "'# a' # 'b'\n")) = .ok (p', doc') ∧
      ∀ q ∈ p'.layout.quotes.intervals, ∀ c ∈ p'.layout.lineComments.intervals,
        q.contains c.start = false ∧
          (c.contains q.start = true →
            (Text.ofString "'# a' # 'b'\n").inQuotesOnLine c.start = true) := by
  have hdoc : (Buffer.new (Text.ofString "'# a' # 'b'\n")).text.Valid := Text.valid_ofString _
  have hprofile : Profile.python ∈ [Profile.python, Profile.r, Profile.perl, Profile.phpCode] := by
    simp
  obtain ⟨⟨p', doc', hfull⟩, hseparates⟩ := full_separates hprofile hdoc
  exact ⟨p', doc', hfull, hseparates _ _ _ hfull⟩

/-- A string that spans lines turns the toggle around: the apostrophe in the comment on its last line
opens a string. -/
theorem string_inside_comment_r :
    ∃ p' doc', Painter.new.full .r (Buffer.new (Text.ofString "'a\nb' # it's\n")) = .ok (p', doc') ∧
      ∃ q ∈ p'.layout.quotes.intervals, ∃ c ∈ p'.layout.lineComments.intervals,
        c.contains q.start = true := by
  have hrun : (do
      let r ← Painter.new.full .r (Buffer.new (Text.ofString "'a\nb' # it's\n"))
      demand (r.1.layout.quotes.intervals.any fun q =>
        r.1.layout.lineComments.intervals.any fun c => c.contains q.start) .outOfRange) = .ok () := by
    decide +kernel
  obtain ⟨⟨p', doc'⟩, hfull, hrun⟩ := bind_eq_ok.mp hrun
  have hany := demand_eq_ok_iff.mp hrun
  simp only [Array.any_eq_true'] at hany
  exact ⟨p', doc', hfull, hany⟩

/-- These languages have neither heredocs nor quote operators.

**Proof sketch.** Their programs leave both sets empty. -/
lemma outside_composite
    (hprofile : profile ∈
      [Profile.java, Profile.csharp, Profile.javascript, Profile.python, Profile.r])
    (hfull : p.full profile doc = .ok (p', doc')) (pos : Nat) :
    p'.layout.composite.inEither pos = none := by
  have hsorts : Primitive.mapsSortAll .heredocs profile.program = false ∧
      Primitive.mapsSortAll .quoteOperators profile.program = false := by
    simp only [List.mem_cons, List.not_mem_nil, or_false] at hprofile
    rcases hprofile with rfl | rfl | rfl | rfl | rfl <;> decide
  obtain ⟨pass, hpass, hfull⟩ := bind_eq_ok.mp hfull
  cases hfull
  have hcomposite := Primitive.runAll_composite hsorts.1 hsorts.2 hpass
  show pass.layout.composite.inEither pos = none
  rw [hcomposite]
  rfl

/-- These languages accept every line comment mark. -/
lemma accepts_unconditional
    (hprofile : profile ∈
      [Profile.java, Profile.csharp, Profile.javascript, Profile.python, Profile.r])
    (t : Text) (pos : Nat) : profile.dialect.accepts t pos .unconditional ≠ .ok false := by
  have hnone : profile.dialect.tests.lookup .unconditional = none := by
    simp only [List.mem_cons, List.not_mem_nil, or_false] at hprofile
    rcases hprofile with rfl | rfl | rfl | rfl | rfl <;> rfl
  unfold Dialect.accepts
  rw [hnone]
  exact fun h => by cases h

end Painter

end LexPaint
