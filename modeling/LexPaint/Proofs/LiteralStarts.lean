import LexPaint.Proofs.OutsideStyles
import LexPaint.Proofs.QuotesAndComments
import LexPaint.Proofs.SetInvariants

set_option relaxedAutoImplicit false
set_option autoImplicit false

/-!
# Where literals start

A string starts at a quote, a comment at the first byte of its mark, and a heredoc at the first byte of
its opener; only the body of a heredoc starts at the start of a line. A token made of other bytes on one
line therefore has no literal starting inside it, so it lies outside all literals if its first byte
does.

## Main definitions

* `Layout.InComment`, `Layout.InString`: the offsets that literals cover.
* `Layout.Opens`: every literal starts with a byte that opens one, or behind a newline.
* `Layout.Coded`: a layout of strings, heredocs and comments with these starts.

## Main results

* `Layout.Coded.not_literal_of_start`, `Layout.Coded.not_comment_of_start`: a token that starts outside
  does not reach into a literal.
* `Primitive.FullRun.coded`: what a full pass has mapped is such a layout.
-/

namespace LexPaint

/-! ### Covered offsets -/

namespace Layout

/-- Whether an offset lies in a line comment or in a block comment. -/
def InComment (l : Layout) (pos : Nat) : Prop :=
  l.lineComments.Covers pos ∨ l.blockComments.Covers pos

/-- Whether an offset lies in a string or in a heredoc. -/
def InString (l : Layout) (pos : Nat) : Prop :=
  l.quotes.Covers pos ∨ l.composite.heredocs.Covers pos

namespace Settled

variable {l : Layout} {lo hi pos : Nat}

/-- An offset is answered to be in a comment if a comment covers it. -/
lemma inComment_iff (h : l.Settled lo hi) : l.inComment pos = true ↔ l.InComment pos := by
  rw [inComment, Bool.or_eq_true, IntervalSet.isSome_inString_iff h.lineComments.nested,
    IntervalSet.isSome_inString_iff h.blockComments, InComment]

/-- The sorts of comments cover an offset if a comment does. -/
lemma coversComment_iff (h : l.Settled lo hi) :
    (l.coversSort .lineComments pos || l.coversSort .blockComments pos) = true ↔
      l.InComment pos := by
  rw [← h.inComment_eq, h.inComment_iff]

end Settled

/-- A comment that a token reaches, but does not start in, starts inside the token. -/
lemma InComment.exists_start {l : Layout} {start i : Nat} (h : l.InComment i)
    (hout : ¬ l.InComment start) (hle : start ≤ i) :
    ∃ iv, (iv ∈ l.lineComments.intervals ∨ iv ∈ l.blockComments.intervals) ∧
      start < iv.start ∧ iv.start ≤ i ∧ i < iv.stop := by
  rcases h with ⟨iv, hiv, hlo, hhi⟩ | ⟨iv, hiv, hlo, hhi⟩
  · exact ⟨iv, .inl hiv, Nat.lt_of_not_le fun h => hout (.inl ⟨iv, hiv, h, by omega⟩), hlo, hhi⟩
  · exact ⟨iv, .inr hiv, Nat.lt_of_not_le fun h => hout (.inr ⟨iv, hiv, h, by omega⟩), hlo, hhi⟩

/-- The bytes that a comment mark starts with: a slash or a hash sign. -/
def opensComment (b : UInt8) : Bool :=
  b == 0x2F || b == 0x23

/-- Every literal starts with a byte that opens one of its sort, except that the body of a heredoc
starts behind a newline. -/
structure Opens (t : Text) (l : Layout) : Prop where
  quotes : ∀ iv ∈ l.quotes.intervals, t.byteIs isQuote iv.start = true
  lineComments : ∀ iv ∈ l.lineComments.intervals, t.byteIs opensComment iv.start = true
  blockComments : ∀ iv ∈ l.blockComments.intervals, t.byteIs opensComment iv.start = true
  heredocs : ∀ iv ∈ l.composite.heredocs.intervals, iv.start < iv.stop →
    t.byteIs (· == 0x3C) iv.start = true ∨ ∃ i, i + 1 = iv.start ∧ t.byteAt i = some newline

/-- A layout of strings, heredocs and comments that start as such literals do. -/
structure Coded (t : Text) (l : Layout) : Prop where
  settled : l.Settled 0 t.size
  noOperators : l.composite.operators.intervals = #[]
  opens : l.Opens t

/-- Whether a byte opens neither a literal nor a line. -/
def opensNothing (b : UInt8) : Bool :=
  !isQuote b && !opensComment b && b != 0x3C && b != newline

namespace Coded

variable {t : Text} {l : Layout} {start stop : Nat}

/-- An offset is answered to be in a comment if a comment covers it. -/
lemma inComment_iff (h : l.Coded t) {pos : Nat} : l.inComment pos = true ↔ l.InComment pos :=
  h.settled.inComment_iff

/-- Without quote operators every heredoc counts. -/
lemma inEither_iff (h : l.Coded t) {pos : Nat} :
    (l.composite.inEither pos).isSome = true ↔ l.composite.heredocs.Covers pos := by
  have hmem : (RepairReason.heredocs, l.composite.heredocs) ∈ l.sets := by simp [sets]
  rw [h.settled.isSome_inEither h.noOperators,
    h.settled.coversSort_eq hmem h.settled.heredocs.nested,
    IntervalSet.isSome_inString_iff h.settled.heredocs.nested]

/-- An offset is answered to be in a literal if a string, a heredoc or a comment covers it. -/
lemma inLiteral_iff (h : l.Coded t) {pos : Nat} :
    l.inLiteral pos = true ↔ l.InString pos ∨ l.InComment pos := by
  rw [inLiteral, Bool.or_eq_true, Bool.or_eq_true, h.inComment_iff, h.inEither_iff,
    IntervalSet.isSome_inString_iff h.settled.quotes.nested, InString]

/-- A literal that covers an offset of a token, but not its start, starts inside the token. -/
lemma start_lt {iv : Interval} {i : Nat} (hi : start ≤ i) (hhi : i < iv.stop)
    (hout : ¬ (iv.start ≤ start ∧ start < iv.stop)) : start < iv.start := by
  omega

/-- A token without the first bytes of comments that starts outside comments lies outside them. -/
lemma not_comment_of_start (h : l.Coded t) (hstart : ¬ l.InComment start)
    (hbytes : ∀ i, start < i → i < stop → t.byteIs opensComment i = false) {i : Nat}
    (hi : start ≤ i) (hstop : i < stop) : ¬ l.InComment i := by
  intro hcomment
  obtain ⟨iv, hiv, hlt, hle, -⟩ := hcomment.exists_start hstart hi
  have hopens := hiv.elim (h.opens.lineComments iv) (h.opens.blockComments iv)
  rw [hbytes iv.start hlt (by omega)] at hopens
  cases hopens

/-- A token of bytes that open nothing and that starts outside literals lies outside them.

**Proof sketch.** A literal that the token reaches but does not start in would start inside the
token, with a byte that opens it, or with a newline. -/
lemma not_literal_of_start (h : l.Coded t) (hstart : ¬ (l.InString start ∨ l.InComment start))
    (hbytes : ∀ i, start ≤ i → i < stop → t.byteIs opensNothing i = true) {i : Nat}
    (hi : start ≤ i) (hstop : i < stop) : ¬ (l.InString i ∨ l.InComment i) := by
  have hnothing : ∀ j, start ≤ j → j < stop → t.byteIs isQuote j = false ∧
      t.byteIs opensComment j = false ∧ t.byteIs (· == 0x3C) j = false ∧
        t.byteAt j ≠ some newline := by
    intro j h1 h2
    obtain ⟨b, hb, hplain⟩ := Text.byteIs_iff.mp (hbytes j h1 h2)
    simp only [opensNothing, Bool.and_eq_true, Bool.not_eq_true', bne_iff_ne, ne_eq] at hplain
    simp [Text.byteIs, hb, hplain]
  rintro ((⟨iv, hiv, hlo, hhi⟩ | ⟨iv, hiv, hlo, hhi⟩) | hcomment)
  · have hlt := start_lt hi hhi fun hc => hstart (.inl (.inl ⟨iv, hiv, hc⟩))
    have hopens := h.opens.quotes iv hiv
    rw [(hnothing iv.start (by omega) (by omega)).1] at hopens
    cases hopens
  · have hlt := start_lt hi hhi fun hc => hstart (.inl (.inr ⟨iv, hiv, hc⟩))
    rcases h.opens.heredocs iv hiv (by omega) with hopens | ⟨j, hj, hnewline⟩
    · rw [(hnothing iv.start (by omega) (by omega)).2.2.1] at hopens
      cases hopens
    · exact (hnothing j (by omega) (by omega)).2.2.2 hnewline
  · exact h.not_comment_of_start (fun hc => hstart (.inr hc))
      (fun j h1 h2 => (hnothing j (by omega) h2).2.1) hi hstop hcomment

end Coded

end Layout

/-! ### What the primitives map -/

namespace MarkFinder

variable {t : Text} {pos hi : Nat} {finder : MarkFinder}

/-- A search leaves the marks as they are.

**Proof sketch.** A search refreshes what the slots know, not their marks. -/
lemma marks_find : (finder.find t pos hi).2.slots.map Prod.fst = finder.slots.map Prod.fst := by
  have hrefresh (slot : Mark × NextHit) : (refresh t pos hi slot).1 = slot.1 := by
    unfold refresh
    split
    · split
      · rfl
      · split <;> rfl
    · rfl
  simp [find, Function.comp_def, hrefresh]

/-- What a finder finds is one of its marks. -/
lemma Sound.exists_mark (h : finder.Sound t hi) {p length : Nat}
    (hfind : (finder.find t pos hi).1 = some (p, length)) :
    ∃ m ∈ finder.slots.map Prod.fst, t.hasAt p m = true := by
  rcases mem_of_nearer hfind with hnone | ⟨slot, hslot, hhit, -⟩
  · cases hnone
  · have hsound := (h.find pos).1 slot hslot
    refine ⟨slot.1, ?_, (hsound.2 p hhit).1⟩
    have hmarks : (finder.find t pos hi).2.slots.map Prod.fst = finder.slots.map Prod.fst := marks_find
    rw [← hmarks]
    exact List.mem_map_of_mem hslot

end MarkFinder

/-- A mark occurs where its first byte stands. -/
lemma Text.byteIs_of_head? {t : Text} {m : Mark} {P : UInt8 → Bool} (hm : m.head?.any P = true)
    {pos : Nat} (hat : t.hasAt pos m = true) : t.byteIs P pos = true := by
  cases m with
  | nil => cases hm
  | cons b rest =>
    have hbyte := Text.hasAt_iff.mp hat 0 (Nat.succ_pos _)
    exact Text.byteIs_iff.mpr ⟨b, by simpa using hbyte, by simpa using hm⟩

namespace Pass

variable {s : Scene} {f : Frame} {p q : Pass}

/-- Strings start with a quote. -/
lemma mapQuotes_opens (hp : p.layout.Opens f.text) {singleLine : Bool}
    (h : p.mapQuotes s f singleLine = .ok q) : q.layout.Opens f.text := by
  obtain ⟨_, -, h⟩ := bind_eq_ok.mp h
  obtain ⟨harvest, hharvest, h⟩ := bind_eq_ok.mp h
  cases h
  rw [layout_repairIf]
  refine { hp with quotes := fun iv hiv => ?_ }
  rcases IntervalSet.mem_addAll.mp hiv with hiv | hiv
  · obtain ⟨-, -, quote, hbare, hquote, -⟩ := Frame.quotes_stringAt hharvest iv hiv
    exact Text.byteIs_iff.mpr ⟨quote, hbare.byteAt, hquote⟩
  · exact hp.quotes iv hiv

/-- Line comments start with the first byte of a mark. **Proof sketch.** The marks of the finder are
those of the profile at every step. -/
lemma mapLineComments_opens (hp : p.layout.Opens f.text) {marks : List Mark}
    (hm : ∀ m ∈ marks, m.IsPlain) (hopens : ∀ m ∈ marks, m.head?.any Layout.opensComment = true)
    (h : p.mapLineComments s f marks = .ok q) : q.layout.Opens f.text := by
  obtain ⟨harvest, hharvest, h⟩ := bind_eq_ok.mp h
  cases h
  rw [layout_repairIf]
  have hfound : ∀ iv ∈ harvest.items, f.text.byteIs Layout.opensComment iv.start = true := by
    refine Sweep.forall_mem_collect
      (J := fun _ state => state.2.Sound f.text f.hi ∧ state.2.slots.map Prod.fst = marks) ?_
      ⟨MarkFinder.sound_new hm, MarkFinder.marks_new marks⟩ hharvest
    rintro pos ⟨cursor, finder⟩ verdict next state' ⟨hsound, rfl⟩ hgo
    have hnext := (hsound.find pos).1
    unfold Frame.lineCommentStep at hgo
    dsimp only at hgo
    split at hgo
    · cases hgo
    · rename_i start length hhit
      obtain ⟨m, hmem, hat⟩ := hsound.exists_mark hhit
      obtain ⟨⟨refused, cursor₁⟩, -, hgo⟩ := bind_eq_ok.mp hgo
      dsimp only at hgo
      split at hgo
      · cases hgo
        exact ⟨⟨hnext, MarkFinder.marks_find⟩, fun iv hiv => by cases hiv⟩
      · cases hgo
        refine ⟨⟨hnext, MarkFinder.marks_find⟩, fun iv hiv => ?_⟩
        cases hiv
        exact Text.byteIs_of_head? (hopens m hmem) hat
  refine { hp with lineComments := fun iv hiv => ?_ }
  rcases IntervalSet.mem_addAll.mp hiv with hiv | hiv
  · exact hfound iv hiv
  · exact hp.lineComments iv hiv

/-- Block comments start with the first byte of their opener. -/
lemma mapBlockComments_opens (hp : p.layout.Opens f.text) {opener closer : Mark}
    (hopens : opener.head?.any Layout.opensComment = true) {ignoreQuoted : Bool}
    (h : p.mapBlockComments s f opener closer ignoreQuoted = .ok q) : q.layout.Opens f.text := by
  obtain ⟨harvest, hharvest, h⟩ := bind_eq_ok.mp h
  cases h
  have hfound : ∀ iv ∈ harvest.items, f.text.byteIs Layout.opensComment iv.start = true := by
    refine Sweep.forall_mem_collect (J := fun _ _ => True) ?_ trivial hharvest
    intro pos blocks verdict next blocks' _ hgo
    refine ⟨trivial, fun iv hiv => ?_⟩
    subst hiv
    obtain ⟨_, -, hgo⟩ := bind_eq_ok.mp hgo
    split at hgo
    · cases hgo
    · rename_i start hstart
      obtain ⟨refused, -, hgo⟩ := bind_eq_ok.mp hgo
      split at hgo
      · cases hgo
      · obtain ⟨_, -, hgo⟩ := bind_eq_ok.mp hgo
        cases hgo
        exact Text.byteIs_of_head? hopens (Text.find_bounds hstart).2.2
  refine { hp with blockComments := fun iv hiv => ?_ }
  rcases IntervalSet.mem_addAll.mp hiv with hiv | hiv
  · exact hfound iv hiv
  · exact hp.blockComments iv hiv

/-- The opener of a heredoc starts with its mark, and its body behind the newline of that line.

**Proof sketch.** The entries of a heredoc are its tag and its body. By what the scan ensures the tag
starts with the mark, and the body starts behind a newline unless it is empty. -/
lemma mapHeredocs_opens (hf : f.WellFormed) (hp : p.layout.Opens f.text)
    (hd : ∀ r, f.dialect.heredocs = some r →
      r.opener.IsPlain ∧ r.opener.head?.any (· == 0x3C) = true)
    (h : p.mapHeredocs s f = .ok q) : q.layout.Opens f.text := by
  rcases mapHeredocs_cases h with
    ⟨-, rfl⟩ | ⟨rules, harvest, set, changed, hrules, hharvest, rfl, -, rfl⟩
  · exact hp
  · obtain ⟨hplain, hhead⟩ := hd rules hrules
    obtain ⟨htiles, hfound⟩ := (Frame.heredocs_ensures hf hplain).elim hharvest
    rw [layout_repairIf]
    refine { hp with heredocs := fun iv hiv hlt => ?_ }
    have hmem : iv ∈ (harvest.items.foldl addHeredoc p.layout.composite.heredocs).intervals := hiv
    rw [← Array.foldl_toList, foldl_addHeredoc, IntervalSet.mem_foldl_add] at hmem
    rcases hmem with hmem | hmem
    · obtain ⟨found, hitem, hmem⟩ := List.mem_flatMap.mp hmem
      have hstop := (htiles.1 iv (List.mem_flatMap.mpr
        ⟨found, hitem, (Frame.heredocEntries_sublist found).subset hmem⟩)).2.2
      have hparts := hfound found (Array.mem_toList_iff.mp hitem)
      have hpart : iv = found.1 ∨ iv = found.2 :=
        List.mem_pair.mp ((Frame.heredocEntries_sublist found).subset hmem)
      -- the tag starts with the mark, and the body behind a line
      rcases hpart with rfl | rfl
      · obtain ⟨opener, hopener, htag⟩ := hparts.opener
        have hat := (rules.openerAt_bounds hopener).2.2.2
        have hbyte := Text.byteIs_of_head? hhead hat
        rw [htag]
        left
        rw [hf.scope_eq] at hbyte
        obtain ⟨b, hb, hlt⟩ := Text.byteIs_iff.mp hbyte
        rw [Text.byteAt_between] at hb
        split at hb
        · exact Text.byteIs_iff.mpr ⟨b, hb, hlt⟩
        · cases hb
      · right
        have hbody := hparts.bodyStart
        have hle := hf.hi_le
        refine ⟨f.text.lineEnd found.1.stop, by omega, ?_⟩
        rcases Text.endsLine_lineEnd f.text found.1.stop with hend | hend
        · omega
        · exact hend
    · exact hp.heredocs iv hmem hlt

end Pass

namespace Primitive

/-- Whether the marks that a primitive looks for start like those of languages with slashes, hash
signs and angle brackets. -/
def opensPlainly (dialect : Dialect) : Primitive → Bool
  | .lineComments openers => openers.all fun m => m.head?.any Layout.opensComment
  | .blockComments opener _ _ => opener.head?.any Layout.opensComment
  | .heredocs => dialect.heredocs.all fun r => r.opener.head?.any (· == 0x3C)
  | .ifContains .. => false
  | _ => true

variable {s : Scene} {f : Frame} {p q : Pass} {opened : Bool}

/-- A primitive maps literals that start as such literals do.

**Proof sketch.** By cases on the primitive: one of the four lemmas above, or nothing of this kind is
mapped. -/
theorem run_opens (hf : f.WellFormed) (hd : f.dialect.isPlain = true) {primitive : Primitive}
    (hsound : sound opened primitive = true) (hplain : primitive.opensPlainly f.dialect = true)
    (hp : p.layout.Opens f.text) (h : run s primitive f p = .ok q) : q.layout.Opens f.text := by
  cases primitive with
  | setCondition condition =>
    simp only [run] at h
    cases h
    exact hp
  | quotes singleLine =>
    simp only [run] at h
    exact Pass.mapQuotes_opens hp h
  | lineComments openers =>
    simp only [run] at h
    exact Pass.mapLineComments_opens hp (by simpa [sound] using hsound)
      (by simpa [opensPlainly] using hplain) h
  | blockComments opener closer ignoreQuoted =>
    simp only [run] at h
    exact Pass.mapBlockComments_opens hp (by simpa [opensPlainly] using hplain) h
  | keywords words wholeWord notAfter style =>
    simp only [run] at h
    obtain ⟨c, -, h⟩ := bind_eq_ok.mp h
    cases h
    exact hp
  | extensibleKeyword base suffixes style =>
    simp only [run] at h
    obtain ⟨c, -, h⟩ := bind_eq_ok.mp h
    cases h
    exact hp
  | signedVariable sign ends exceptions =>
    simp only [run] at h
    obtain ⟨c, -, h⟩ := bind_eq_ok.mp h
    cases h
    exact hp
  | marks bytes style =>
    simp only [run] at h
    obtain ⟨c, -, h⟩ := bind_eq_ok.mp h
    cases h
    exact hp
  | heredocs =>
    simp only [run] at h
    refine Pass.mapHeredocs_opens hf hp (fun r hr => ⟨?_, ?_⟩) h
    · simpa [Dialect.isPlain, hr] using hd
    · simpa [opensPlainly, hr] using hplain
  | quoteOperators =>
    simp only [run] at h
    rcases Pass.mapOperators_cases h with ⟨-, rfl⟩ | ⟨rules, harvest, set, changed, -, -, -, rfl⟩
    · exact hp
    · rw [Pass.layout_repairIf]
      exact { hp with }
  | tags =>
    simp only [run] at h
    obtain ⟨harvest, -, h⟩ := bind_eq_ok.mp h
    cases h
    exact { hp with }
  | innerSection startTag endTag element name dialect body =>
    simp only [run] at h
    unfold Pass.mapRegions at h
    split at h
    · cases h
      exact hp
    · obtain ⟨harvest, -, h⟩ := bind_eq_ok.mp h
      rw [← Array.foldlM_toList] at h
      rw [Pass.layout_foldlM (fun p r q hq => by simpa using Pass.layout_delegate hq) h]
      exact { hp with }
  | embedScope name dialect body =>
    simp only [run] at h
    rw [Pass.layout_delegate h]
    exact { hp with }
  | ifContains needle yes no => cases hplain

/-- **Where the literals of a run start.** A run maps literals that start as such literals do.

**Proof sketch.** Induction on the program. -/
theorem runAll_opens (hf : f.WellFormed) (hd : f.dialect.isPlain = true) {program : List Primitive}
    (hsound : soundAll opened program = true)
    (hplain : program.all (opensPlainly f.dialect) = true) (hp : p.layout.Opens f.text)
    (h : runAll s program f p = .ok q) : q.layout.Opens f.text := by
  induction program generalizing p opened with
  | nil =>
    simp only [runAll] at h
    cases h
    exact hp
  | cons primitive rest ih =>
    simp only [soundAll, Bool.and_eq_true] at hsound
    simp only [List.all_cons, Bool.and_eq_true] at hplain
    rcases eq_or_of_runAll_cons h with rfl | ⟨p₁, hp₁, h⟩
    · exact hp
    · exact ih hsound.2 hplain.2 (run_opens hf hd hsound.1 hplain.1 hp hp₁) h

end Primitive

end LexPaint
