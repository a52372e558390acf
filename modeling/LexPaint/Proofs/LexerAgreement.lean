import LexPaint.Proofs.CommentAgreement
import LexPaint.Proofs.SetInvariants

set_option relaxedAutoImplicit false
set_option autoImplicit false

/-!
# Block comments after a full pass

Java, C#, JavaScript and CSS map strings, line comments and block comments, in this order, and paint
tokens behind that. So what a full pass leaves there is what the three scans have read, and the block
comments that it has mapped are those that the scanner knows, up to where the scans read the text in
another way.

## Main definitions

* `Profile.Lexes`: a program of the three scans and of tokens.

## Main results

* `Profile.Lexes.runPass`: what a full pass leaves.
* `Painter.full_blocks_agree`: the block comments of a full pass and of the scanner.
-/

namespace LexPaint

/-! ### The three scans -/

namespace Pass

variable {t : Text} {d : Dialect} {p q : Pass}

/-- The scan for strings adds strings to a layout.

**Proof sketch.** The set was empty, so all its strings come from the sweep, and each of them is what
its quote opens. -/
lemma mapQuotes_strings {singleLine : Bool} (hnone : p.layout.quotes.intervals = #[])
    (h : p.mapQuotes (.document t) (.document t d) singleLine = .ok q) :
    (∃ quotes, q.layout = { p.layout with quotes }) ∧
      ∀ iv ∈ q.layout.quotes.intervals, iv.start < t.size ∧
        ∃ quote, t.byteAt iv.start = some quote ∧ isQuote quote = true ∧
          (Frame.document t d).stringAt p.condition singleLine quote iv.start = .ok iv := by
  obtain ⟨_, -, h⟩ := bind_eq_ok.mp h
  obtain ⟨harvest, hharvest, h⟩ := bind_eq_ok.mp h
  dsimp only at h
  rw [repairIf_of_not_detect rfl] at h
  cases h
  refine ⟨⟨_, rfl⟩, fun iv hiv => ?_⟩
  have hfound : iv ∈ harvest.items := by
    rcases IntervalSet.mem_addAll.mp hiv with hiv | hiv
    · exact hiv
    · rw [hnone] at hiv
      simp at hiv
  obtain ⟨-, hlt, quote, hbare, hquote, hstring⟩ := Frame.quotes_stringAt hharvest iv hfound
  exact ⟨hlt, quote, hbare.byteAt, hquote, hstring⟩

/-- The scan for line comments adds comments and their starts to a layout.

**Proof sketch.** The comments of a sweep lie side by side, so sorting them changes nothing, and
their starts are added in the same order. -/
lemma mapLineComments_adds (ht : t.Valid) {marks : List Mark} (hmarks : ∀ m ∈ marks, m.IsPlain)
    (hnone : p.layout.lineComments.intervals = #[])
    (h : p.mapLineComments (.document t) (.document t d) marks = .ok q) :
    q.condition = .unconditional ∧ ∃ (lineComments : IntervalSet) (commentStarts : Array Nat),
      q.layout = { p.layout with lineComments, commentStarts } ∧
      commentStarts = p.layout.commentStarts ++ lineComments.intervals.map Interval.start ∧
      Tiles 0 t.size lineComments.intervals.toList := by
  obtain ⟨harvest, hharvest, h⟩ := bind_eq_ok.mp h
  obtain ⟨htiles, -⟩ := (Frame.lineComments_ensures (Frame.wellFormed_document ht d) _ _
    hmarks).elim hharvest
  dsimp only at h
  rw [repairIf_of_not_detect rfl] at h
  cases h
  have hitems := IntervalSet.toList_addAll hnone (htiles.nested.imp And.left)
  have hfound : (p.layout.lineComments.addAll harvest.items).intervals = harvest.items :=
    Array.ext' hitems
  refine ⟨rfl, _, _, rfl, ?_, ?_⟩
  · show _ = p.layout.commentStarts ++
      (p.layout.lineComments.addAll harvest.items).intervals.map Interval.start
    rw [hfound]
  · show Tiles 0 t.size (p.layout.lineComments.addAll harvest.items).intervals.toList
    rw [hitems]
    exact htiles

/-- The scan for block comments adds comments to a layout.

**Proof sketch.** As for line comments, the set holds what the sweep found in the order of the text. -/
lemma mapBlockComments_reads (ht : t.Valid) {opener closer : Mark} (hopener : opener.IsPlain)
    (hcloser : closer.IsPlain) (hnone : p.layout.blockComments.intervals = #[])
    (hstarts : ∀ start ∈ p.layout.commentStarts, t.isBoundary start = true)
    (h : p.mapBlockComments (.document t) (.document t d) opener closer true = .ok q) :
    ∃ blockComments : IntervalSet, q.layout = { p.layout with blockComments } ∧
      Frame.BlocksRead t d p.layout p.condition opener closer t.size blockComments.intervals ∧
      Tiles 0 t.size blockComments.intervals.toList := by
  obtain ⟨harvest, hharvest, h⟩ := bind_eq_ok.mp h
  obtain ⟨htiles, -⟩ := (Frame.blockComments_ensures (Frame.wellFormed_document ht d) _ hopener hcloser
    true hstarts _).elim hharvest
  cases h
  have hitems := IntervalSet.toList_addAll hnone (htiles.nested.imp And.left)
  have hfound : (p.layout.blockComments.addAll harvest.items).intervals = harvest.items :=
    Array.ext' hitems
  refine ⟨p.layout.blockComments.addAll harvest.items, rfl, ?_, ?_⟩
  · rw [hfound]
    exact Frame.blockComments_spec ht hopener hcloser hnone hharvest
  · rw [hitems]
    exact htiles

end Pass

/-! ### Tokens -/

namespace Primitive

variable {s : Scene} {f : Frame} {p q : Pass}

/-- Whether a primitive maps nothing. -/
def mapsNothing : Primitive → Bool
  | .setCondition _ | .keywords .. | .extensibleKeyword .. | .signedVariable .. | .marks .. => true
  | _ => false

/-- What paints tokens leaves the layout as it is. -/
lemma run_mapsNothing {primitive : Primitive} (hnothing : primitive.mapsNothing = true)
    (h : run s primitive f p = .ok q) : q.layout = p.layout := by
  cases primitive with
  | setCondition => cases h; rfl
  | keywords | extensibleKeyword | signedVariable | marks =>
    obtain ⟨canvas, -, h⟩ := bind_eq_ok.mp h
    cases h
    rfl
  | _ => cases hnothing

/-- What maps nothing leaves the layout as it is.

**Proof sketch.** Induction on the program. -/
lemma runAll_mapsNothing {program : List Primitive} (hnothing : program.all mapsNothing = true)
    (h : runAll s program f p = .ok q) : q.layout = p.layout := by
  induction program generalizing p with
  | nil =>
    cases h
    rfl
  | cons primitive rest ih =>
    rw [List.all_cons, Bool.and_eq_true] at hnothing
    rcases eq_or_of_runAll_cons h with rfl | ⟨p', hrun, h⟩
    · rfl
    · rw [ih hnothing.2 h, run_mapsNothing hnothing.1 hrun]

end Primitive

/-! ### Full passes -/

/-- A program that maps strings, under the condition `due`, then line comments, if there are any, and
block comments, under the comment rules of its dialect, and that maps nothing else. -/
structure Profile.Lexes (profile : Profile) (due : Condition) (rules : CommentRules) : Prop where
  comments : profile.dialect.comments = some rules
  slashed : rules.Slashed
  blocks_due : rules.textBlocks = true ↔ due = .textBlock
  unconditional : profile.dialect.tests.lookup .unconditional = none
  program : ∃ before mid after,
    profile.program =
      before ++ .quotes true :: (mid ++ .blockComments rules.opener rules.closer true :: after) ∧
    (before = [] ∧ due = .unconditional ∨ before = [.setCondition due]) ∧
    (mid = [] ∧ rules.lineMarks = [] ∨ mid = [.lineComments rules.lineMarks]) ∧
    after.all Primitive.mapsNothing = true

namespace Profile

/-- These programs map strings and comments and nothing else.

**Proof sketch.** By inspection of the four programs. -/
lemma exists_lexes {profile : Profile} (h : profile ∈ [java, csharp, javascript, css]) :
    ∃ due rules, profile.Lexes due rules := by
  simp only [List.mem_cons, List.not_mem_nil, or_false] at h
  rcases h with rfl | rfl | rfl | rfl
  · exact ⟨.textBlock, _, rfl, ⟨by decide, by decide, .inr (by decide), rfl, rfl⟩, by decide, rfl,
      [.setCondition .textBlock], [.lineComments [mark "//"]], _, rfl, .inr rfl, .inr rfl, by decide⟩
  · exact ⟨.unconditional, _, rfl, ⟨by decide, by decide, .inr (by decide), rfl, rfl⟩, by decide, rfl,
      [], [.lineComments [mark "//"]], _, rfl, .inl ⟨rfl, rfl⟩, .inr rfl, by decide⟩
  · exact ⟨.unconditional, _, rfl, ⟨by decide, by decide, .inr (by decide), rfl, rfl⟩, by decide, rfl,
      [], [.lineComments [mark "//"]], _, rfl, .inl ⟨rfl, rfl⟩, .inr rfl, by decide⟩
  · exact ⟨.unconditional, _, rfl, ⟨by decide, by decide, .inl rfl, rfl, rfl⟩, by decide, rfl,
      [], [], _, rfl, .inl ⟨rfl, rfl⟩, .inl ⟨rfl, rfl⟩, by decide⟩

variable {profile : Profile} {due : Condition} {rules : CommentRules} {t : Text} {p q : Pass}

/-- What stands in front of the strings leaves the layout and sets the condition. -/
lemma Lexes.before {before : List Primitive}
    (hbefore : before = [] ∧ due = .unconditional ∨ before = [.setCondition due])
    (hp : p.condition = .unconditional) (hquiet : p.repair = none) {s : Scene} {f : Frame}
    (h : Primitive.runAll s before f p = .ok q) : q.layout = p.layout ∧ q.condition = due := by
  rcases hbefore with ⟨rfl, rfl⟩ | rfl
  · cases h
    exact ⟨rfl, hp⟩
  · rw [Primitive.runAll_cons hquiet] at h
    obtain ⟨p', hp', h⟩ := bind_eq_ok.mp h
    cases hp'
    cases h
    exact ⟨rfl, rfl⟩

/-- What stands between the strings and the block comments maps the line comments.

**Proof sketch.** Without line comments in the rules nothing is mapped and none is to be read. With
them the scan for line comments runs, and what it finds is what was read. -/
lemma Lexes.mid (h : profile.Lexes due rules) (ht : t.Valid) {mid : List Primitive}
    (hmid : mid = [] ∧ rules.lineMarks = [] ∨ mid = [.lineComments rules.lineMarks])
    (hlines : p.layout.lineComments.intervals = #[]) (hstarts : p.layout.commentStarts = #[])
    (hcondition : p.condition = .unconditional) (hquiet : p.repair = none)
    (hrun : Primitive.runAll (.document t) mid (.document t profile.dialect) p = .ok q) :
    q.condition = .unconditional ∧ ∃ (lineComments : IntervalSet) (commentStarts : Array Nat),
      q.layout = { p.layout with lineComments, commentStarts } ∧
      commentStarts = lineComments.intervals.map Interval.start ∧
      Tiles 0 t.size lineComments.intervals.toList ∧
      Frame.MarksRead t profile.dialect p.layout .unconditional rules.lineMarks t.size
        lineComments.intervals := by
  have hproper (r : CommentRules) (hr : profile.dialect.comments = some r) : r.Proper := by
    obtain rfl := Option.some.inj (h.comments.symm.trans hr)
    exact h.slashed.proper
  rcases hmid with ⟨rfl, hnone⟩ | rfl
  · -- the language has no line comments
    cases hrun
    refine ⟨hcondition, p.layout.lineComments, p.layout.commentStarts, rfl, ?_, ?_, ?_⟩
    · rw [hstarts, hlines, Array.map_empty]
    · rw [hlines]
      exact .nil
    · rw [hlines, hnone]
      exact ⟨by simp, by simp⟩
  · rw [Primitive.runAll_cons hquiet] at hrun
    obtain ⟨p', hp', hrun⟩ := bind_eq_ok.mp hrun
    cases hrun
    have hplain : ∀ m ∈ rules.lineMarks, m.IsPlain := by
      intro m hm
      rw [h.slashed.eq_slashes hm]
      decide
    obtain ⟨hread, -, -⟩ := Pass.mapLineComments_reads ht hproper hplain hlines hp'
    obtain ⟨hcondition', lineComments, commentStarts, hlayout, hstarts', htiles⟩ :=
      Pass.mapLineComments_adds ht hplain hlines hp'
    rw [hlayout, hcondition] at hread
    rw [hstarts, Array.empty_append] at hstarts'
    exact ⟨hcondition', lineComments, commentStarts, hlayout, hstarts', htiles, hread⟩

/-- **A full pass leaves what the three scans have read.**

**Proof sketch.** The scans run one after the other on an empty layout, each adds its own set, and what
runs behind them maps nothing. -/
theorem Lexes.runPass (h : profile.Lexes due rules) {doc : Buffer} (hdoc : doc.text.Valid)
    {layout : Layout} {nested : IntervalSet} {pass : Pass}
    (hpass : profile.runPass doc 0 doc.size false layout nested = .ok pass) :
    pass.layout.Lexed doc.text profile.dialect rules due := by
  obtain ⟨before, mid, after, hprogram, hbefore, hmid, hafter⟩ := h.program
  have hproper (r : CommentRules) (hr : profile.dialect.comments = some r) : r.Proper := by
    obtain rfl := Option.some.inj (h.comments.symm.trans hr)
    exact h.slashed.proper
  have hscene : (⟨doc.text, 0, 0 + doc.size, false⟩ : Scene) = .document doc.text := by
    rw [Nat.zero_add]
    rfl
  unfold Profile.runPass at hpass
  dsimp only at hpass
  rw [hprogram, hscene] at hpass
  obtain ⟨p₁, p₂, h₁, h₂, hpass, -, hquiet₂⟩ := Primitive.runAll_split rfl rfl hpass
  obtain ⟨p₃, p₄, h₃, h₄, h₅, -, -⟩ := Primitive.runAll_split rfl hquiet₂ hpass
  simp only [Primitive.run] at h₂ h₄
  obtain ⟨hlayout₁, hcondition₁⟩ := Lexes.before hbefore rfl rfl h₁
  have hquotes₁ : p₁.layout.quotes.intervals = #[] := by rw [hlayout₁]; rfl
  obtain ⟨hquotesRead, hquoteTiles, hcondition₂, -, -⟩ := Pass.mapQuotes_reads hdoc hproper hquotes₁ h₂
  obtain ⟨⟨quotes, hlayout₂⟩, hstrings⟩ := Pass.mapQuotes_strings hquotes₁ h₂
  rw [hlayout₁] at hquotesRead hlayout₂
  obtain ⟨hcondition₃, lineComments, commentStarts, hlayout₃, hstarts, hlineTiles, hlines⟩ :=
    h.mid hdoc hmid (by rw [hlayout₂]; rfl) (by rw [hlayout₂]; rfl) hcondition₂ hquiet₂ h₃
  -- line comments start at their marks, which the scan for blocks looks up
  have hboundaries : ∀ start ∈ commentStarts, doc.text.isBoundary start = true := by
    rw [hstarts]
    intro start hstart
    obtain ⟨iv, hiv, rfl⟩ := Array.mem_map.mp hstart
    obtain ⟨m, hm, hat⟩ := List.any_eq_true.mp (hlines.opened iv hiv).1
    rw [h.slashed.eq_slashes hm] at hat
    exact Text.isBoundary_of_hasAt (by decide) hat
  obtain ⟨blockComments, hlayout₄, hblocks, hblockTiles⟩ :=
    Pass.mapBlockComments_reads hdoc (by rw [h.slashed.opener]; decide)
      (by rw [h.slashed.closer]; decide) (by rw [hlayout₃, hlayout₂]; rfl)
      (by rw [hlayout₃]; exact hboundaries) h₄
  have hlayout₅ := Primitive.runAll_mapsNothing hafter h₅
  rw [hlayout₂] at hquoteTiles hstrings hlines hlayout₃ hquotesRead
  rw [hlayout₃, hcondition₃] at hblocks
  rw [hlayout₃] at hlayout₄
  rw [hlayout₅, hlayout₄]
  exact
    { valid := hdoc
      comments := h.comments
      slashed := h.slashed
      blocks_due := h.blocks_due
      unconditional := h.unconditional
      quoteTiles := hquoteTiles
      lineTiles := hlineTiles
      blockTiles := hblockTiles
      quotes := ⟨hquotesRead.opened, hquotesRead.covered⟩
      strings := by rwa [hcondition₁] at hstrings
      lines := ⟨hlines.opened, hlines.covered⟩
      blocks := ⟨hblocks.opened, hblocks.covered⟩
      noComposite := fun pos => rfl
      noEmbedded := rfl
      starts := by rw [hstarts]; exact Array.toList_map }

end Profile

/-! ### Painters -/

namespace Painter

variable {profile : Profile} {doc : Buffer}

/-- After a full pass the mapped block comments and those of the scanner are the same up to an offset in
front of which the scans read the text as the scanner does.

**Proof sketch.** The layout of the pass is one that the three scans have lexed (`Lexes.runPass`), and
there the scanner and the scans run side by side (`Layout.Lexed.inBlockComment_iff`). -/
lemma inBlockComment_iff_of_full {p p' : Painter} {doc' : Buffer} {pos : Nat}
    (hprofile : profile ∈ [Profile.java, Profile.csharp, Profile.javascript, Profile.css])
    (hdoc : doc.text.Valid) (hfull : p.full profile doc = .ok (p', doc')) (hpos : pos < doc.text.size)
    (hread : ∀ rules q, profile.dialect.comments = some rules →
      rules.Scans doc.text ⟨0, .code⟩ q → q.pos < pos → profile.dialect.ReadsAlike rules doc.text q)
    (start : Nat) :
    profile.dialect.inBlockComment doc.text pos = some start ↔
      ∃ iv ∈ p'.layout.blockComments.intervals, iv.contains pos = true ∧ iv.start = start := by
  obtain ⟨due, rules, hlexes⟩ := Profile.exists_lexes hprofile
  obtain ⟨pass, hpass, hfull⟩ := bind_eq_ok.mp hfull
  cases hfull
  exact (hlexes.runPass hdoc hpass).inBlockComment_iff
    (fun q hscan hlt => hread rules q hlexes.comments hscan hlt) hpos start

/-- **The block comments of a full pass and of the scanner.** In Java, C#, JavaScript and CSS every text
gets a full pass, and after it an offset lies in a block comment if and only if the scanner takes it to
lie in one, with the same start, provided that the scans have read everything before the offset as the
scanner does.

**Proof sketch.** A full pass succeeds for every sound profile, and a pass that has succeeded is
described by `Painter.inBlockComment_iff_of_full`. -/
theorem full_blocks_agree
    (hprofile : profile ∈ [Profile.java, Profile.csharp, Profile.javascript, Profile.css])
    (hdoc : doc.text.Valid) :
    (∃ p' doc', Painter.new.full profile doc = .ok (p', doc')) ∧
      ∀ (p p' : Painter) (doc' : Buffer), p.full profile doc = .ok (p', doc') →
        ∀ pos < doc.text.size,
          (∀ rules q, profile.dialect.comments = some rules → rules.Scans doc.text ⟨0, .code⟩ q →
            q.pos < pos → profile.dialect.ReadsAlike rules doc.text q) →
          ∀ start, profile.dialect.inBlockComment doc.text pos = some start ↔
            ∃ iv ∈ p'.layout.blockComments.intervals, iv.contains pos = true ∧ iv.start = start := by
  have hsound : profile.Sound := by
    refine Profile.sound_of_mem_builtIn ?_
    simp only [List.mem_cons, List.not_mem_nil, or_false] at hprofile
    rcases hprofile with rfl | rfl | rfl | rfl <;> simp [Profile.builtIn]
  constructor
  · obtain ⟨r, hr, -⟩ := full_ensures (p := .new) hsound hdoc Layout.historyOrdered_empty
    exact ⟨r.1, r.2, hr⟩
  · intro p p' doc' hfull pos hpos hread
    exact inBlockComment_iff_of_full hprofile hdoc hfull hpos hread

/-- In this text the scans read every point of the scanner as the scanner does: a string with an open
mark, and a comment with a quote.

**Proof sketch.** The points that the scanner comes through are listed, and the list is closed under its
step. -/
lemma readsAlike_java {rules : CommentRules} {q : LexPoint}
    (hrules : Profile.java.dialect.comments = some rules)
    (hscan : rules.Scans (Text.ofString "\"/*\"/*'*/") ⟨0, .code⟩ q) :
    Profile.java.dialect.ReadsAlike rules (Text.ofString "\"/*\"/*'*/") q := by
  obtain rfl := Option.some.inj hrules
  let points : List LexPoint := [⟨0, .code⟩, ⟨1, .quote doubleQuote⟩, ⟨2, .quote doubleQuote⟩,
    ⟨3, .quote doubleQuote⟩, ⟨4, .code⟩, ⟨6, .blockComment 4⟩, ⟨7, .blockComment 4⟩, ⟨9, .code⟩]
  have hmem : q ∈ points := hscan.mem_of_closed (by decide) (by decide +kernel)
  have hread : ∀ q ∈ points, Dialect.java.ReadsAlike { CommentRules.slashes with textBlocks := true }
      (Text.ofString "\"/*\"/*'*/") q := by
    decide +kernel
  exact hread q hmem

/-- A string with an open mark, and a comment with a quote. -/
theorem full_blocks_agree_java :
    ∃ p' doc', Painter.new.full .java (Buffer.new (Text.ofString "\"/*\"/*'*/")) = .ok (p', doc') ∧
      ∀ pos < 9, ∀ start,
        Dialect.java.inBlockComment (Text.ofString "\"/*\"/*'*/") pos = some start ↔
          ∃ iv ∈ p'.layout.blockComments.intervals, iv.contains pos = true ∧ iv.start = start := by
  have hdoc : (Buffer.new (Text.ofString "\"/*\"/*'*/")).text.Valid := Text.valid_ofString _
  have hprofile : Profile.java ∈ [Profile.java, Profile.csharp, Profile.javascript, Profile.css] := by
    simp
  obtain ⟨⟨p', doc', hfull⟩, hagree⟩ := full_blocks_agree hprofile hdoc
  exact ⟨p', doc', hfull, fun pos hpos => hagree _ _ _ hfull pos hpos fun rules q hrules hscan _ =>
    readsAlike_java hrules hscan⟩

/-- An escaped quote outside strings opens a string for the scanner and none for the scans, so they know
a comment behind it that the scanner does not. -/
theorem blocks_disagree_javascript :
    ∃ p' doc', Painter.new.full .javascript (Buffer.new (Text.ofString "/\\\"/ /**/")) = .ok (p', doc') ∧
      p'.layout.blockComments.intervals = #[⟨5, 9, .blockComment⟩] ∧
      ∀ pos < 9, Profile.javascript.dialect.inBlockComment (Text.ofString "/\\\"/ /**/") pos = none := by
  have hrun : (do
      let r ← Painter.new.full .javascript (Buffer.new (Text.ofString "/\\\"/ /**/"))
      demand (decide (r.1.layout.blockComments.intervals = #[(⟨5, 9, .blockComment⟩ : Interval)])) .outOfRange) =
        .ok () := by
    decide +kernel
  obtain ⟨⟨p', doc'⟩, hfull, hrun⟩ := bind_eq_ok.mp hrun
  exact ⟨p', doc', hfull, of_decide_eq_true (demand_eq_ok_iff.mp hrun), by decide +kernel⟩

end Painter

end LexPaint
