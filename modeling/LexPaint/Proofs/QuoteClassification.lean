import LexPaint.Proofs.LexerAgreement

set_option relaxedAutoImplicit false
set_option autoImplicit false

/-!
# Quotes that no literal has

A quote that is not escaped opens a string, ends one, or is part of a literal that hides it. The scan for
strings discards a quote for a mark on its line or for the comment scanner, and the comments are mapped
later, by scans that judge for themselves. So a quote is lost exactly where the mark that it was discarded
for opens no comment in the end.

## Main definitions

* `Layout.AccountsFor`: a quote lies in a literal, or stands behind a mark that opened no comment.

## Main results

* `Painter.full_classifies`: a full pass accounts for every quote that is not escaped, with the block
  comments of the scanner and, where the lexers agree, with those that it has mapped.
-/

namespace LexPaint

/-! ### Layouts -/

section Layouts

variable {l : Layout} {d : Dialect} {t : Text} {pos : Nat} {hides hides' : Nat → Prop}

/-- A quote is accounted for if it lies in a string or a line comment, or if it is hidden as in a block
comment. The other way is that it stands behind an unquoted mark of its line that opens no comment. Such a
mark is a mark in a string, or in what hides like a block comment, or it overlaps one. -/
def Layout.AccountsFor (l : Layout) (d : Dialect) (t : Text) (hides : Nat → Prop) (pos : Nat) : Prop :=
  l.quotes.Covers pos ∨ l.lineComments.Covers pos ∨ hides pos ∨
    ∃ m, d.behindLineMark t pos = some m ∧
      ∃ mark ∈ d.lineMarks, ∃ start, t.hasAt start mark = true ∧ start ≤ m ∧ m < start + mark.length ∧
        (l.quotes.Covers start ∨ hides start)

/-- What hides a quote may hide more, up to the quote itself.

**Proof sketch.** The mark that a quote stands behind starts before the quote, and so does the mark that
it overlaps. -/
lemma Layout.AccountsFor.imp (h : l.AccountsFor d t hides pos) (hpos : pos ≤ t.size)
    (hwider : ∀ i ≤ pos, hides i → hides' i) : l.AccountsFor d t hides' pos := by
  rcases h with hstring | hline | hhidden | ⟨m, hm, mark, hmark, start, hat, hle, hlt, hreason⟩
  · exact .inl hstring
  · exact .inr (.inl hline)
  · exact .inr (.inr (.inl (hwider pos (Nat.le_refl pos) hhidden)))
  · have hbefore := (Text.behindMarkOnLine_eq_some hpos hm).1
    exact .inr (.inr (.inr ⟨m, hm, mark, hmark, start, hat, hle, hlt,
      hreason.imp_right (hwider start (by omega))⟩))

/-- A line does not end before an offset that stands behind a mark of it. -/
lemma lt_lineEnd_of_behind {start m : Nat} (hm : m < t.lineEnd start) (hpos : pos < t.size)
    (hno : ∀ j, m ≤ j → j ≤ pos → t.byteAt j ≠ some newline) : pos < t.lineEnd start := by
  refine Nat.lt_of_not_le fun hle => ?_
  rcases t.endsLine_lineEnd start with hend | hend
  · omega
  · exact hno _ (Nat.le_of_lt hm) hle hend

/-- An unquoted mark in front of a quote opened a line comment, which reaches beyond the quote, or it
overlaps a mark that was rejected.

**Proof sketch.** The scan for line comments has a comment on every mark or a reason to reject it. No
newline stands between the mark and the quote, and a line comment ends with its line. -/
lemma Frame.MarksRead.covers_or_rejects {due : Condition} {m : Nat}
    (h : Frame.MarksRead t d l due d.lineMarks t.size l.lineComments.intervals)
    (hquote : t.byteIs isQuote pos = true) (hbehind : d.behindLineMark t pos = some m) :
    l.lineComments.Covers pos ∨ ∃ mark ∈ d.lineMarks, ∃ start, t.hasAt start mark = true ∧ start ≤ m ∧
      m < start + mark.length ∧ d.Rejects t l due start := by
  obtain ⟨b, hb, hqb⟩ := Text.byteIs_iff.mp hquote
  have hsize := Text.lt_size_of_byteAt hb
  obtain ⟨hlt, hany, -, -, hno⟩ := Text.behindMarkOnLine_eq_some (Nat.le_of_lt hsize) hbehind
  obtain ⟨mark, hmark, hat⟩ := List.any_eq_true.mp hany
  rcases h.covered m (Nat.lt_trans hlt hsize) mark hmark hat with ⟨c, hc, hcontains⟩ | hrejected
  · obtain ⟨hcm, hmc⟩ := Interval.contains_iff.mp hcontains
    have hstop := (h.opened c hc).2.1
    refine .inl ⟨c, hc, by omega, ?_⟩
    rw [hstop] at hmc ⊢
    refine lt_lineEnd_of_behind hmc hsize fun j h1 h2 => ?_
    rcases Nat.lt_or_eq_of_le h2 with h2 | rfl
    · exact hno j h1 h2
    · -- the quote itself is no newline
      intro hnewline
      rw [hb] at hnewline
      obtain rfl := Option.some.inj hnewline
      exact absurd hqb (by decide)
  · obtain ⟨start, mark', hmark', hat', hle, hlt', hrejects⟩ := hrejected
    exact .inr ⟨mark', hmark', start, hat', hle, hlt', hrejects⟩

end Layouts

/-! ### Painters -/

namespace Painter

variable {profile : Profile} {doc doc' : Buffer} {p p' : Painter} {pos : Nat}

/-- After a full pass every unescaped quote is accounted for, with the block comments that the comment
scanner knows.

**Proof sketch.** A quote that opens no string and lies in none was discarded, for the scanner or for a
mark on its line. Such a mark opened a line comment, which reaches beyond the quote, or it overlaps a
rejected one (`Frame.MarksRead.covers_or_rejects`). These languages have neither heredocs nor quote
operators and accept every mark, so what was rejected lies in a string or is what the scanner takes for a
block comment. -/
lemma accountsFor_of_full
    (hprofile : profile ∈
      [Profile.java, Profile.csharp, Profile.javascript, Profile.python, Profile.r])
    (hdoc : doc.text.Valid) (hfull : p.full profile doc = .ok (p', doc'))
    (hquote : doc.text.byteIs isQuote pos = true) (hescaped : doc.text.escaped pos = false) :
    p'.layout.AccountsFor profile.dialect doc.text
      (fun i => (profile.dialect.inBlockComment doc.text i).isSome = true) pos := by
  obtain ⟨hnested, hquotes, hmarks⟩ :=
    reads_of_full (Profile.comments_unconditional hprofile) hdoc hfull
  have hsize : pos < doc.text.size := Text.lt_size_of_byteIs hquote
  rcases hquotes.covered pos hsize hquote with hstring | hesc | heither | hbehind | hblock
  · obtain ⟨q, hq, hcontains⟩ := hstring
    exact .inl ⟨q, hq, Interval.contains_iff.mp hcontains⟩
  · rw [hescaped] at hesc
    cases hesc
  · rw [outside_composite hprofile hfull] at heither
    cases heither
  · obtain ⟨m, hm⟩ := Option.isSome_iff_exists.mp hbehind
    rcases hmarks.covers_or_rejects hquote hm with
      hline | ⟨mark, hmark, start, hat, hle, hlt, hrejects⟩
    · exact .inr (.inl hline)
    · refine .inr (.inr (.inr ⟨m, hm, mark, hmark, start, hat, hle, hlt, ?_⟩))
      rcases hrejects with hstring | heither | hblock | hrefused
      · exact .inl ((IntervalSet.isSome_inString_iff hnested).mp hstring)
      · rw [outside_composite hprofile hfull] at heither
        cases heither
      · exact .inr hblock
      · exact absurd hrefused (accepts_unconditional hprofile doc.text start)
  · exact .inr (.inr (.inl hblock))

/-- **Every quote is accounted for.** In Java, C#, JavaScript, Python and R every text gets a full pass,
and after it every quote that is not escaped lies in a string, in a line comment, or in what the comment
scanner takes for a block comment, or it stands behind an unquoted mark of its line that opens no comment.
Such a mark overlaps a mark in a string, or in what the comment scanner takes for a block comment. In Java,
C# and JavaScript the block comments are the mapped ones where the scans have read the text in front of the
quote as the scanner does. Python and R have none.

**Proof sketch.** The quote is accounted for with the block comments of the scanner
(`accountsFor_of_full`). Up to the quote these are the mapped ones by `inBlockComment_iff_of_full`. Without
comment rules the scanner answers that there is none. -/
theorem full_classifies
    (hprofile : profile ∈
      [Profile.java, Profile.csharp, Profile.javascript, Profile.python, Profile.r])
    (hdoc : doc.text.Valid) :
    (∃ p' doc', Painter.new.full profile doc = .ok (p', doc')) ∧
      ∀ (p p' : Painter) (doc' : Buffer), p.full profile doc = .ok (p', doc') →
        ∀ pos, doc.text.byteIs isQuote pos = true → doc.text.escaped pos = false →
          p'.layout.AccountsFor profile.dialect doc.text
            (fun i => (profile.dialect.inBlockComment doc.text i).isSome = true) pos ∧
          (profile ∈ [Profile.java, Profile.csharp, Profile.javascript] →
            (∀ rules q, profile.dialect.comments = some rules →
              rules.Scans doc.text ⟨0, .code⟩ q → q.pos < pos →
              profile.dialect.ReadsAlike rules doc.text q) →
            p'.layout.AccountsFor profile.dialect doc.text p'.layout.blockComments.Covers pos) ∧
          (profile ∈ [Profile.python, Profile.r] →
            p'.layout.AccountsFor profile.dialect doc.text (fun _ => False) pos) := by
  have hsound : profile.Sound := by
    refine Profile.sound_of_mem_builtIn ?_
    simp only [List.mem_cons, List.not_mem_nil, or_false] at hprofile
    rcases hprofile with rfl | rfl | rfl | rfl | rfl <;> simp [Profile.builtIn]
  refine ⟨?_, fun p p' doc' hfull pos hquote hescaped => ?_⟩
  · obtain ⟨r, hr, -⟩ := full_ensures (p := .new) hsound hdoc Layout.historyOrdered_empty
    exact ⟨r.1, r.2, hr⟩
  have hscanner := accountsFor_of_full hprofile hdoc hfull hquote hescaped
  have hsize : pos < doc.text.size := Text.lt_size_of_byteIs hquote
  refine ⟨hscanner, fun hblocks hread => ?_, fun hnone => ?_⟩
  · -- the marks lie in front of the quote, so the scans have read up to them alike, too
    refine hscanner.imp (Nat.le_of_lt hsize) fun i hi hhidden => ?_
    have hlexes : profile ∈ [Profile.java, Profile.csharp, Profile.javascript, Profile.css] := by
      simp only [List.mem_cons, List.not_mem_nil, or_false] at hblocks ⊢
      tauto
    obtain ⟨start, hstart⟩ := Option.isSome_iff_exists.mp hhidden
    obtain ⟨iv, hiv, hcontains, -⟩ := (inBlockComment_iff_of_full hlexes hdoc hfull (by omega)
      (fun rules q hrules hscan hlt => hread rules q hrules hscan (by omega)) start).mp hstart
    exact ⟨iv, hiv, Interval.contains_iff.mp hcontains⟩
  · refine hscanner.imp (Nat.le_of_lt hsize) fun i _ hhidden => ?_
    simp only [List.mem_cons, List.not_mem_nil, or_false] at hnone
    rcases hnone with rfl | rfl <;> cases hhidden

/-- An apostrophe in a mapped block comment of Java, and one behind a mark in a string of Python. -/
theorem full_classifies_java_python :
    (∃ p' doc', Painter.new.full .java (Buffer.new (Text.ofString "\"/*\"/*'*/")) = .ok (p', doc') ∧
      p'.layout.AccountsFor .java (Text.ofString "\"/*\"/*'*/")
        (fun i => (Dialect.java.inBlockComment (Text.ofString "\"/*\"/*'*/") i).isSome = true) 6 ∧
      p'.layout.AccountsFor .java (Text.ofString "\"/*\"/*'*/") p'.layout.blockComments.Covers 6) ∧
    ∃ p' doc', Painter.new.full .python (Buffer.new (Text.ofString "'#' '\\''\n")) = .ok (p', doc') ∧
      p'.layout.AccountsFor Profile.python.dialect (Text.ofString "'#' '\\''\n") (fun _ => False) 7 := by
  have hjava : Profile.java ∈
      [Profile.java, Profile.csharp, Profile.javascript, Profile.python, Profile.r] := by simp
  have hpython : Profile.python ∈
      [Profile.java, Profile.csharp, Profile.javascript, Profile.python, Profile.r] := by simp
  have hdoc : (Buffer.new (Text.ofString "\"/*\"/*'*/")).text.Valid := Text.valid_ofString _
  have hdoc' : (Buffer.new (Text.ofString "'#' '\\''\n")).text.Valid := Text.valid_ofString _
  constructor
  · obtain ⟨⟨p', doc', hfull⟩, hall⟩ := full_classifies hjava hdoc
    obtain ⟨hscanner, hmapped, -⟩ := hall _ _ _ hfull 6 (by decide +kernel) (by decide +kernel)
    exact ⟨p', doc', hfull, hscanner, hmapped (by simp) fun rules q hrules hscan _ =>
      readsAlike_java hrules hscan⟩
  · obtain ⟨⟨p', doc', hfull⟩, hall⟩ := full_classifies hpython hdoc'
    obtain ⟨-, -, hnone⟩ := hall _ _ _ hfull 7 (by decide +kernel) (by decide +kernel)
    exact ⟨p', doc', hfull, hnone (by simp)⟩

/-- Slashes on the last line of a block comment hide the string behind the comment from the toggle:
no set has the quote. -/
theorem quote_unclassified_csharp :
    ∃ p' doc', Painter.new.full .csharp (Buffer.new (Text.ofString "/*\n// */ \"x\"\n")) =
        .ok (p', doc') ∧
      (Text.ofString "/*\n// */ \"x\"\n").byteIs isQuote 9 = true ∧
      (Text.ofString "/*\n// */ \"x\"\n").escaped 9 = false ∧
      ∀ iv ∈ p'.layout.allIntervals, iv.contains 9 = false := by
  have hrun : (do
      let r ← Painter.new.full .csharp (Buffer.new (Text.ofString "/*\n// */ \"x\"\n"))
      demand (r.1.layout.allIntervals.all fun iv => !iv.contains 9) .outOfRange) = .ok () := by
    decide +kernel
  obtain ⟨⟨p', doc'⟩, hfull, hrun⟩ := bind_eq_ok.mp hrun
  have hall := List.all_eq_true.mp (demand_eq_ok_iff.mp hrun)
  exact ⟨p', doc', hfull, by decide +kernel, by decide +kernel, fun iv hiv => by
    simpa using hall iv hiv⟩

end Painter

end LexPaint
