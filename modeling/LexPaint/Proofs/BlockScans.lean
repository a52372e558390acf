import LexPaint.Proofs.LiteralEnds
import LexPaint.Proofs.QuoteScans

set_option relaxedAutoImplicit false
set_option autoImplicit false

/-!
# What the scan for block comments reads

A text block ends behind the first unescaped closing mark. The scan for block comments reads every open
mark of the document: it maps a comment there, unless the mark lies in a comment that it has mapped
before, in another literal, or behind a line comment of its line.

## Main definitions

* `Text.UnescapedEnd`: where a search for an unescaped mark ends.
* `Dialect.Declines`: the reasons to map no block comment at an open mark.
* `Frame.BlocksRead`: what the scan has read up to an offset.
* `Frame.BlocksScanned`: the same with what the scan remembers.

## Main results

* `Text.findUnescaped_end`: the search for the end of a text block.
* `Frame.blockComments_spec`: the scan for block comments.
-/

namespace LexPaint

/-! ### Unescaped marks -/

namespace Text

variable {t : Text} {m : Mark} {pos hi i : Nat}

/-- The end of a range that goes from an offset up to the first unescaped occurrence of a mark and over
it, or to the end of the text where there is none. -/
def UnescapedEnd (t : Text) (m : Mark) (pos stop : Nat) : Prop :=
  (∃ i, pos ≤ i ∧ t.hasAt i m = true ∧ t.escaped i = false ∧ stop = i + m.length ∧
      ∀ j, pos ≤ j → j < i → t.hasAt j m = true → t.escaped j = true) ∨
    (∀ j, pos ≤ j → t.hasAt j m = true → t.escaped j = true) ∧ stop = t.size

/-- The range does not end in front of its start. -/
lemma UnescapedEnd.le_stop {stop : Nat} (h : t.UnescapedEnd m pos stop) (hpos : pos ≤ t.size) :
    pos ≤ stop := by
  rcases h with ⟨i, hi, -, -, rfl, -⟩ | ⟨-, rfl⟩
  · omega
  · exact hpos

/-- An unescaped mark at the offset is the first one. -/
lemma UnescapedEnd.stop_eq {stop : Nat} (h : t.UnescapedEnd m pos stop) (hat : t.hasAt pos m = true)
    (hescaped : t.escaped pos = false) : stop = pos + m.length := by
  rcases h with ⟨i, hi, -, -, rfl, hbefore⟩ | ⟨hall, -⟩
  · rcases Nat.eq_or_lt_of_le hi with rfl | hlt
    · rfl
    · rw [hbefore pos (Nat.le_refl _) hlt hat] at hescaped
      cases hescaped
  · rw [hall pos (Nat.le_refl _) hat] at hescaped
    cases hescaped

/-- Offsets at which no unescaped mark stands can be passed over. -/
lemma UnescapedEnd.skip {stop pos' : Nat} (h : t.UnescapedEnd m pos stop) (hle : pos ≤ pos')
    (hnone : ∀ j, pos ≤ j → j < pos' → t.hasAt j m = true → t.escaped j = true) :
    t.UnescapedEnd m pos' stop := by
  rcases h with ⟨i, hi, hat, hesc, hstop, hbefore⟩ | ⟨hall, hstop⟩
  · refine .inl ⟨i, ?_, hat, hesc, hstop, fun j hj => hbefore j (by omega)⟩
    rcases Nat.lt_or_ge i pos' with hlt | hge
    · rw [hnone i hi hlt hat] at hesc
      cases hesc
    · exact hge
  · exact .inr ⟨fun j hj => hall j (by omega), hstop⟩

/-- The search for an unescaped mark finds the first one. -/
lemma findUnescaped_end (ht : t.Valid) (hm : m.IsPlain) (hb : t.isBoundary pos = true) :
    t.UnescapedEnd m pos (match t.findUnescaped m pos t.size with
      | some i => i + m.length
      | none => t.size) := by
  have hescaped {j : Nat} (hat : t.hasAt j m = true) (hbare : ¬ t.Bare m j) : t.escaped j = true := by
    rw [← Bool.not_eq_false]
    exact fun hesc => hbare ⟨hat, hesc⟩
  cases hfound : t.findUnescaped m pos t.size with
  | some i =>
    obtain ⟨hle, -, hat, hesc⟩ := findUnescaped_bounds hfound
    exact .inl ⟨i, hle, hat, hesc, rfl, fun j hj hji hatj =>
      hescaped hatj (free_of_findUnescaped hfound j hj hji)⟩
  | none =>
    exact .inr ⟨fun j hj hatj => hescaped hatj
      ((findUnescaped_eq_none_iff ht hm hb).mp hfound j hj (le_size_of_hasAt hatj hm.1)), rfl⟩

end Text

/-! ### Block comments -/

/-- The reasons to map no block comment at an open mark: it lies in a string, in a heredoc or a quote
operator, in an embedded section, or behind the start of a line comment on its line, or the dialect does
not accept it. -/
def Dialect.Declines (d : Dialect) (t : Text) (l : Layout) (condition : Condition) (pos : Nat) :
    Prop :=
  (l.quotes.inString pos).isSome = true ∨ (l.composite.inEither pos).isSome = true ∨
    (l.embedded.inString pos).isSome = true ∨
    (Frame.document t d).afterCommentStart l.commentStarts pos = .ok true ∨
    d.accepts t pos condition = .ok false

namespace Frame

variable {t : Text} {d : Dialect} {f : Frame} {l : Layout} {condition : Condition}
variable {opener closer : Mark} {found : Array Interval} {last start pos : Nat}

/-- Sorted starts grow with their index. -/
lemma getElem_le_of_sorted {starts : Array Nat} (hsorted : starts.toList.Pairwise (· ≤ ·)) {i j : Nat}
    (hij : i ≤ j) (hj : j < starts.size) : starts[i] ≤ starts[j] := by
  rcases Nat.eq_or_lt_of_le hij with rfl | hlt
  · exact Nat.le_refl _
  · have hpair := List.pairwise_iff_getElem.mp hsorted i j (by simpa using Nat.lt_of_le_of_lt hij hj)
      (by simpa using hj) hlt
    rwa [Array.getElem_toList, Array.getElem_toList] at hpair

/-- Bisection splits sorted starts at an offset.

**Proof sketch.** Bisection is right for a predicate that splits the array, and a bound splits a
sorted one. -/
lemma lt_bisect_starts {starts : Array Nat} (hsorted : starts.toList.Pairwise (· ≤ ·)) {i : Nat}
    (hi : i < starts.size) : i < bisect starts (fun start => start ≤ pos) ↔ starts[i] ≤ pos := by
  have hholds (j : Nat) (hj : j < starts.size) :
      holdsAt starts (fun start => start ≤ pos) j = true ↔ starts[j] ≤ pos := by
    rw [holdsAt_iff, Array.getElem?_eq_getElem hj]
    simp
  rw [← holdsAt_iff_lt_bisect, hholds i hi]
  intro i j hij hj
  have hjlt := lt_size_of_holdsAt hj
  rw [hholds j hjlt] at hj
  rw [hholds i (Nat.lt_of_le_of_lt hij hjlt)]
  exact Nat.le_trans (getElem_le_of_sorted hsorted hij hjlt) hj

/-- An offset stands behind the start of a line comment if one of the starts lies on its line.

**Proof sketch.** The program looks at the last start in front of the offset only. If any start lies
on the line of the offset, the last one does. -/
lemma afterCommentStart_iff {starts : Array Nat} (hsorted : starts.toList.Pairwise (· ≤ ·))
    {answer : Bool} (h : f.afterCommentStart starts pos = .ok answer) :
    answer = true ↔ ∃ start ∈ starts, start ≤ pos ∧
      ∀ i, start ≤ i → i < pos → f.text.byteAt i ≠ some newline := by
  unfold afterCommentStart at h
  split at h
  · rename_i hnone
    cases h
    refine ⟨fun h => absurd h Bool.false_ne_true, ?_⟩
    rintro ⟨start, hstart, hle, -⟩
    obtain ⟨i, hi, rfl⟩ := Array.mem_iff_getElem.mp hstart
    have := (lt_bisect_starts hsorted hi).mpr hle
    omega
  · rename_i n hn
    have hsize : n < starts.size := by
      have := bisect_le_size (a := starts) (p := fun start => decide (start ≤ pos))
      omega
    obtain ⟨_, -, h⟩ := bind_eq_ok.mp h
    cases h
    rw [Array.getElem?_eq_getElem hsize, Option.getD_some, Option.isNone_iff_eq_none,
      Text.findByte_eq_none_iff]
    have hbyte (i : Nat) : f.text.byteIs (· == newline) i = false ↔ f.text.byteAt i ≠ some newline := by
      rw [Bool.eq_false_iff, ne_eq, Text.byteIs_eq_iff]
    simp only [hbyte]
    constructor
    · exact fun hno => ⟨starts[n], Array.getElem_mem hsize,
        (lt_bisect_starts hsorted hsize).mp (by omega), hno⟩
    · rintro ⟨start, hstart, hle, hno⟩ i h1 h2
      -- the last start on the line is not before the given one
      obtain ⟨j, hj, rfl⟩ := Array.mem_iff_getElem.mp hstart
      have hjn := (lt_bisect_starts hsorted hj).mpr hle
      exact hno i (Nat.le_trans (getElem_le_of_sorted hsorted (by omega) hsize) h1) h2

/-- A scan refuses an open mark for a reason to decline it, or since it lies in a block that is
mapped already. -/
lemma refusesBlockComment_eq_ok {blocks : IntervalSet} {refused : Bool}
    (h : (document t d).refusesBlockComment l condition true pos blocks = .ok refused) :
    refused = true ↔ d.Declines t l condition pos ∨ (blocks.inString pos).isSome = true := by
  unfold refusesBlockComment at h
  unfold Dialect.Declines
  split at h
  · rename_i hin
    cases h
    simp only [Bool.true_and, Bool.or_eq_true] at hin
    tauto
  · rename_i hout
    simp only [Bool.true_and, Bool.or_eq_true] at hout
    obtain ⟨after, hafter, h⟩ := bind_eq_ok.mp h
    cases after with
    | true =>
      cases h
      tauto
    | false =>
      obtain ⟨accepted, haccepted, h⟩ := bind_eq_ok.mp h
      cases h
      obtain ⟨offset, hoffset, haccepted⟩ := bind_eq_ok.mp haccepted
      obtain rfl : pos = offset := minus_eq_ok_iff.mp hoffset
      have haccepted : d.accepts t pos condition = .ok accepted := haccepted
      rw [hafter, haccepted]
      cases accepted <;> simp_all

/-- The block comments found so far start at open marks that are not declined and end at the next close
mark, and every open mark in front of an offset lies in one of them or overlaps a declined mark. -/
structure BlocksRead (t : Text) (d : Dialect) (l : Layout) (condition : Condition)
    (opener closer : Mark) (last : Nat) (found : Array Interval) : Prop where
  opened : ∀ iv ∈ found, (document t d).IsBlock opener closer iv ∧ ¬ d.Declines t l condition iv.start
  covered : ∀ pos < last, t.hasAt pos opener = true →
    (∃ iv ∈ found, iv.contains pos = true) ∨
      ∃ start, t.hasAt start opener = true ∧ start ≤ pos ∧ pos < start + opener.length ∧
        d.Declines t l condition start

namespace BlocksRead

/-- A scan has read what stands in front of the text, which is nothing. -/
lemma zero : BlocksRead t d l condition opener closer 0 #[] :=
  ⟨by simp, by simp⟩

/-- A scan that goes on to where no mark lies before misses none. -/
lemma skip (h : BlocksRead t d l condition opener closer last found)
    (hnone : ∀ pos, last ≤ pos → pos < start → t.hasAt pos opener = false) :
    BlocksRead t d l condition opener closer start found where
  opened := h.opened
  covered pos hpos hat := by
    rcases Nat.lt_or_ge pos last with hlt | hge
    · exact h.covered pos hlt hat
    · rw [hnone pos hge hpos] at hat
      cases hat

/-- A mark that is declined accounts for the open marks that start inside it. -/
lemma decline (h : BlocksRead t d l condition opener closer start found)
    (hdeclines : d.Declines t l condition start) (hat : t.hasAt start opener = true) :
    BlocksRead t d l condition opener closer (start + opener.length) found where
  opened := h.opened
  covered pos hpos hat' := by
    rcases Nat.lt_or_ge pos start with hlt | hge
    · exact h.covered pos hlt hat'
    · exact .inr ⟨start, hat, hge, hpos, hdeclines⟩

/-- A block that is mapped accounts for the open marks that start inside it. -/
lemma push {iv : Interval} (h : BlocksRead t d l condition opener closer iv.start found)
    (hblock : (document t d).IsBlock opener closer iv)
    (hkeeps : ¬ d.Declines t l condition iv.start) :
    BlocksRead t d l condition opener closer iv.stop (found.push iv) where
  opened iv' hiv := by
    rcases Array.mem_push.mp hiv with hiv | rfl
    · exact h.opened iv' hiv
    · exact ⟨hblock, hkeeps⟩
  covered pos hpos hat := by
    rcases Nat.lt_or_ge pos iv.start with hlt | hge
    · obtain ⟨iv', hiv, hc⟩ | hdeclined := h.covered pos hlt hat
      · exact .inl ⟨iv', Array.mem_push.mpr (.inl hiv), hc⟩
      · exact .inr hdeclined
    · exact .inl ⟨_, Array.mem_push.mpr (.inr rfl), Interval.contains_iff.mpr ⟨hge, hpos⟩⟩

end BlocksRead

/-- The scan in front of an offset: what it has found was read, it knows all of what it has found, and
it has passed it. -/
structure BlocksScanned (t : Text) (d : Dialect) (l : Layout) (condition : Condition)
    (opener closer : Mark) (last : Nat) (blocks : IntervalSet) (found : Array Interval) : Prop where
  read : BlocksRead t d l condition opener closer last found
  known : ∀ iv ∈ blocks.intervals, iv ∈ found
  passed : ∀ iv ∈ found, iv.stop ≤ last

namespace BlocksScanned

variable {blocks blocks' : IntervalSet} {harvest : Sweep.Harvest Interval}

/-- The scan meets no mark inside a comment that it has found. -/
lemma free (h : BlocksScanned t d l condition opener closer last blocks found) (hle : last ≤ start) :
    (blocks.inString start).isSome = false := by
  rw [Bool.eq_false_iff, ne_eq, IntervalSet.isSome_inString, Option.isSome_iff_exists]
  rintro ⟨iv, hiv⟩
  obtain ⟨hmem, -, hlt⟩ := IntervalSet.mem_of_intervalAt hiv
  have := h.passed iv (h.known iv hmem)
  omega

/-- A scan passes by a mark that it declines. -/
lemma decline (h : BlocksScanned t d l condition opener closer start blocks found)
    (hdeclines : d.Declines t l condition start) (hat : t.hasAt start opener = true) :
    BlocksScanned t d l condition opener closer (start + opener.length) blocks found :=
  ⟨h.read.decline hdeclines hat, h.known, fun iv hiv => Nat.le_trans (h.passed iv hiv) (by omega)⟩

/-- A scan that maps a block has passed it. -/
lemma push {iv : Interval} (h : BlocksScanned t d l condition opener closer iv.start blocks found)
    (hblock : (document t d).IsBlock opener closer iv) (hle : iv.start ≤ iv.stop)
    (hkeeps : ¬ d.Declines t l condition iv.start) :
    BlocksScanned t d l condition opener closer iv.stop (blocks.add iv) (found.push iv) where
  read := h.read.push hblock hkeeps
  known iv' hiv := by
    rcases IntervalSet.mem_add.mp hiv with rfl | hiv
    · exact Array.mem_push_self
    · exact Array.mem_push_of_mem _ (h.known iv' hiv)
  passed iv' hiv := by
    rcases Array.mem_push.mp hiv with hiv | rfl
    · exact Nat.le_trans (h.passed iv' hiv) hle
    · exact Nat.le_refl _

/-- One step of the scan. All that it refuses it declines.

**Proof sketch.** The step goes to the next open mark, so none is missed. The mark lies in no block
of the set, since the scan has passed those (`free`), so it is refused for a reason to decline it or
mapped. -/
lemma go (ht : t.Valid) (hopener : opener.IsPlain) (hcloser : closer.IsPlain)
    (h : BlocksScanned t d l condition opener closer last blocks harvest.items)
    {verdict : Sweep.Verdict Interval} {next : Nat}
    (hgo : (document t d).blockCommentStep l condition opener closer true last blocks =
      .ok (.go verdict next blocks')) :
    last < next ∧
      BlocksScanned t d l condition opener closer next blocks' (harvest.add verdict).items := by
  have hpos : 0 < opener.length := List.length_pos_iff.mpr hopener.1
  obtain ⟨_, -, hgo⟩ := bind_eq_ok.mp hgo
  split at hgo
  · cases hgo
  · rename_i start hstart
    obtain ⟨hle, hfits, hat, hbefore⟩ := Text.find_eq_some_iff.mp hstart
    have hskip : BlocksScanned t d l condition opener closer start blocks harvest.items :=
      ⟨h.read.skip hbefore, h.known, fun iv hiv => Nat.le_trans (h.passed iv hiv) hle⟩
    obtain ⟨refused, hrefused, hgo⟩ := bind_eq_ok.mp hgo
    have hrefused := refusesBlockComment_eq_ok hrefused
    -- the mark lies in no block that the scan has mapped
    rw [h.free hle] at hrefused
    split at hgo
    · rename_i hyes
      cases hgo
      have hdeclines := (hrefused.mp hyes).resolve_right Bool.false_ne_true
      exact ⟨by omega, hskip.decline hdeclines hat⟩
    · rename_i hno
      obtain ⟨_, -, hgo⟩ := bind_eq_ok.mp hgo
      cases hgo
      have hkeeps : ¬ d.Declines t l condition start := fun hd => hno (hrefused.mpr (.inl hd))
      -- a mark that is neither declined nor in a block is mapped up to its close mark
      have hbody := (blockEnd_bounds (wellFormed_document ht d) hcloser hfits).1
      have hblock : (document t d).IsBlock opener closer
          ⟨start, (document t d).blockEnd closer (start + opener.length), .blockComment⟩ :=
        ⟨hat, hfits, rfl, rfl⟩
      have hmax : max ((document t d).blockEnd closer (start + opener.length))
          (start + opener.length) = (document t d).blockEnd closer (start + opener.length) :=
        Nat.max_eq_left hbody
      refine ⟨Nat.lt_of_lt_of_le (by omega) (Nat.le_max_right _ _), ?_⟩
      show BlocksScanned t d l condition opener closer
        (max ((document t d).blockEnd closer (start + opener.length)) (start + opener.length)) _ _
      rw [hmax]
      exact push hskip hblock (Nat.le_trans (Nat.le_add_right _ _) hbody) hkeeps

/-- Where the scan stops, no mark is left. -/
lemma stop (hopener : opener.IsPlain)
    (h : BlocksScanned t d l condition opener closer last blocks found)
    (hstop : (document t d).blockCommentStep l condition opener closer true last blocks = .ok .stop) :
    BlocksRead t d l condition opener closer t.size found := by
  obtain ⟨_, -, hstop⟩ := bind_eq_ok.mp hstop
  split at hstop
  · rename_i hnone
    refine h.read.skip fun pos h1 h2 => Bool.eq_false_iff.mpr fun hat => ?_
    have hfits := Text.le_size_of_hasAt hat hopener.1
    have hat' : t.hasAt pos opener = false := Text.find_eq_none_iff.mp hnone pos h1 hfits
    rw [hat'] at hat
    cases hat
  · obtain ⟨refused, -, hstop⟩ := bind_eq_ok.mp hstop
    split at hstop
    · cases hstop
    · obtain ⟨_, -, hstop⟩ := bind_eq_ok.mp hstop
      cases hstop

end BlocksScanned

/-- **What the scan for block comments finds.** Every block comment starts at an open mark that is not
declined and ends at the next close mark, and every open mark of the document lies in a block comment or
overlaps a declined mark.

**Proof sketch.** Induction on the sweep. It meets no mark inside a comment that it has found, for it
goes on behind it; so all that it refuses it declines. -/
theorem blockComments_spec (ht : t.Valid) (hopener : opener.IsPlain) (hcloser : closer.IsPlain)
    {blocks : IntervalSet} (hnone : blocks.intervals = #[]) {harvest : Sweep.Harvest Interval}
    (h : Sweep.collect ((document t d).blockCommentStep l condition opener closer true) t.size 0
      blocks = .ok harvest) :
    BlocksRead t d l condition opener closer t.size harvest.items :=
  Sweep.collect_induction
    (I := fun last blocks h => BlocksScanned t d l condition opener closer last blocks h.items)
    (fun _ _ _ _ _ _ hscanned hgo _ => hscanned.go ht hopener hcloser hgo)
    (fun _ _ _ hscanned hstop => hscanned.stop hopener hstop)
    ⟨.zero, by simp [hnone], by simp [Sweep.Harvest.empty]⟩ h

end Frame

end LexPaint
