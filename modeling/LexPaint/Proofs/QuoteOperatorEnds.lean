import LexPaint.Proofs.LiteralEnds
import LexPaint.Proofs.LocalPasses
import LexPaint.Proofs.SortFrames
import Mathlib.Algebra.Order.Interval.Finset.SuccPred
import Mathlib.Data.Nat.SuccPred
import Mathlib.Order.Bounds.Defs
import Mathlib.Order.Interval.Finset.Nat

set_option relaxedAutoImplicit false
set_option autoImplicit false

/-!
# Where quote operators end

A delimited part ends behind the first closer that is not escaped and, if its delimiters are brackets,
stands between as many openers as closers. The scan for it keeps a counter and steps over a backslash
together with the byte behind it, so the nesting is stated here by counting: from the opener up to any
offset the counter is the number of openers less the number of closers that are not escaped.

An operator with two parts goes on behind the first one. Brackets open the second part anew, behind
optional blanks, and if nothing opens it the operator ends with the first. Any other delimiter closes
the first part and opens the second at once.

## Main definitions

* `Text.bareCount`: how often a byte stands unescaped between two offsets.
* `QuoteOperatorRules.ClosesPart`, `QuoteOperatorRules.IsPartEnd`: what closes a part, and where it ends.
* `QuoteOperatorRules.NextDelimiter`: the delimiter behind optional blanks.
* `QuoteOperatorRules.OperatorEnds`: where an operator ends.
* `Interval.IsOperator`: an interval that has the shape of a quote operator.

## Main results

* `QuoteOperatorRules.delimitedEnd_eq_ok_iff`: the scan ends a part at its balanced delimiter.
* `QuoteOperatorRules.operatorEnd_ends`: an operator ends with its last part.
* `Primitive.runAll_isOperator`: a program maps quote operators only.
* `Painter.full_operators`: every part, every operator and every interval that Perl maps.
-/

namespace LexPaint

/-! ### Counting unescaped bytes -/

namespace Text

variable {t : Text} {b : UInt8} {lo i j : Nat}

/-- The number of unescaped occurrences of a byte strictly between two offsets. -/
def bareCount (t : Text) (b : UInt8) (lo hi : Nat) : Nat :=
  ((Finset.Ioo lo hi).filter fun i => t.Bare [b] i).card

/-- Nothing stands between neighbours. -/
@[simp]
lemma bareCount_succ_self (t : Text) (b : UInt8) (lo : Nat) : t.bareCount b lo (lo + 1) = 0 := by
  simp [bareCount, Finset.Ioo_add_one_right_eq_Ioc]

/-- One more byte counts if it stands unescaped. -/
lemma bareCount_succ (hlt : lo < i) :
    t.bareCount b lo (i + 1) = t.bareCount b lo i + if t.Bare [b] i then 1 else 0 := by
  unfold bareCount
  rw [Finset.Ioo_add_one_right_eq_Ioc, ← Finset.Ioo_insert_right hlt, Finset.filter_insert]
  by_cases hbare : t.Bare [b] i
  · rw [if_pos hbare, if_pos hbare, Finset.card_insert_of_notMem (by simp)]
  · rw [if_neg hbare, if_neg hbare, Nat.add_zero]

/-- A range in which the byte does not stand unescaped adds nothing. -/
lemma bareCount_of_free (hlt : lo < i) (hle : i ≤ j) (hfree : t.Free [b] i j) :
    t.bareCount b lo j = t.bareCount b lo i := by
  induction j, hle using Nat.le_induction with
  | base => rfl
  | succ j hle ih =>
    have hskip := hfree j hle (Nat.lt_succ_self j)
    rw [bareCount_succ (by omega), if_neg hskip, Nat.add_zero]
    exact ih (hfree.mono (Nat.le_refl _) (Nat.le_succ j))

end Text

namespace QuoteOperatorRules

variable {t : Text} {opener : UInt8} {start pos i hi stop : Nat}

/-! ### One part -/

/-- The offset of a byte that closes the part which `opener` opens at `start`: an unescaped closer,
between which and the opener as many unescaped openers stand as closers if the two differ. A backslash
opens a part that nothing closes, because each one behind it takes the next byte along. -/
structure ClosesPart (t : Text) (opener : UInt8) (start i : Nat) : Prop where
  opener_ne : opener ≠ backslash
  start_lt : start < i
  closes : t.Bare [closerOf opener] i
  balanced : closerOf opener ≠ opener →
    t.bareCount opener start i = t.bareCount (closerOf opener) start i

/-- A part that is opened at `start` in a range up to `hi` ends behind the first byte that closes it,
and with the range if there is none. -/
def IsPartEnd (t : Text) (start hi stop : Nat) : Prop :=
  ∃ opener, t.byteAt start = some opener ∧
    ((∃ i, IsLeast {i | i < hi ∧ ClosesPart t opener start i} i ∧ stop = i + 1) ∨
      ((∀ i < hi, ¬ ClosesPart t opener start i) ∧ stop = hi))

/-- A part ends in one place. -/
lemma IsPartEnd.unique {stop' : Nat} (h : IsPartEnd t start hi stop) (h' : IsPartEnd t start hi stop') :
    stop = stop' := by
  obtain ⟨opener, hbyte, hends⟩ := h
  obtain ⟨opener', hbyte', hends'⟩ := h'
  obtain rfl := Option.some.inj (hbyte.symm.trans hbyte')
  rcases hends with ⟨i, hi, rfl⟩ | ⟨hnone, rfl⟩ <;> rcases hends' with ⟨j, hj, rfl⟩ | ⟨hnone', rfl⟩
  · rw [hi.unique hj]
  · exact absurd hi.1.2 (hnone' i hi.1.1)
  · exact absurd hj.1.2 (hnone j hj.1.1)
  · rfl

/-- A backslash closes nothing but itself. -/
lemma closerOf_ne_backslash (h : opener ≠ backslash) : closerOf opener ≠ backslash := by
  unfold closerOf
  repeat' split
  all_goals first | decide | exact h

/-- A part that a backslash opens goes on to the end of the range. -/
lemma closeFrom_backslash (t : Text) (depth i hi : Nat) :
    closeFrom t backslash backslash depth i hi = hi := by
  fun_induction closeFrom t backslash backslash depth i hi with
  | case1 depth i hlt hb ih => exact ih
  | case2 depth i hlt hb ho ih => exact ih
  | case3 i hlt hb ho hc => exact absurd hc hb
  | case4 i hlt hb ho hc d ih => exact absurd hc hb
  | case5 depth i hlt hb ho hc ih => exact ih
  | case6 => rfl

/-- What the scan for a closer has seen when it gets to an offset that is not escaped: its counter is
the number of openers less the number of closers behind `start`, and nothing has closed the part. If
the delimiters are equal, then the counter is zero. -/
structure Seen (t : Text) (opener : UInt8) (start depth i : Nat) : Prop where
  start_lt : start < i
  unescaped : t.escaped i = false
  counted : depth + t.bareCount (closerOf opener) start i = t.bareCount opener start i
  unclosed : ∀ j < i, ¬ ClosesPart t opener start j

namespace Seen

variable {depth : Nat}

/-- What does not close the part leaves it unclosed. -/
lemma unclosed_succ (h : Seen t opener start depth i) (hi : ¬ ClosesPart t opener start i) :
    ∀ j < i + 1, ¬ ClosesPart t opener start j := by
  intro j hj
  rcases Nat.lt_succ_iff_lt_or_eq.mp hj with hlt | rfl
  · exact h.unclosed j hlt
  · exact hi

/-- The scan may pass over what holds neither an opener nor a closer.

**Proof sketch.** Both counts stay the same, and only an unescaped closer could close the part. -/
lemma skip {next : Nat} (h : Seen t opener start depth i) (hle : i ≤ next)
    (hopener : t.Free [opener] i next) (hcloser : t.Free [closerOf opener] i next)
    (hesc : t.escaped next = false) : Seen t opener start depth next where
  start_lt := Nat.lt_of_lt_of_le h.start_lt hle
  unescaped := hesc
  counted := by
    rw [Text.bareCount_of_free h.start_lt hle hopener, Text.bareCount_of_free h.start_lt hle hcloser]
    exact h.counted
  unclosed := by
    intro j hj hcloses
    rcases Nat.lt_or_ge j i with hlt | hge
    · exact h.unclosed j hlt hcloses
    · exact hcloser j hge hj hcloses.closes

/-- A backslash hides the byte behind it. -/
lemma escape (h : Seen t opener start depth i) (hopener : opener ≠ backslash)
    (hbyte : t.byteIs (· == backslash) i = true) : Seen t opener start depth (i + 2) := by
  have hfree {b : UInt8} (hb : b ≠ backslash) :
      t.Unclosed b false i (i + 2) ∧ t.escaped (i + 2) = false :=
    Text.unclosed_escape hb h.unescaped hbyte
  obtain ⟨⟨hfirst, -⟩, hesc⟩ := hfree hopener
  obtain ⟨⟨hsecond, -⟩, -⟩ := hfree (closerOf_ne_backslash hopener)
  exact h.skip (Nat.le_add_right i 2) hfirst hsecond hesc

/-- An opener that is no closer opens a nested part.

**Proof sketch.** The byte counts as an opener only, so both sides go up by one. -/
lemma nest (h : Seen t opener start depth i) (hopener : opener ≠ backslash)
    (hbyte : t.byteAt i = some opener) (hne : closerOf opener ≠ opener) :
    Seen t opener start (depth + 1) (i + 1) := by
  have hbare : t.Bare [opener] i := Text.bare_byte_iff.mpr ⟨hbyte, h.unescaped⟩
  have hnot : ¬ t.Bare [closerOf opener] i := by
    intro hcloser
    exact hne (Option.some.inj (hcloser.byteAt.symm.trans hbyte))
  refine ⟨Nat.lt_succ_of_lt h.start_lt, ?_, ?_, h.unclosed_succ fun hcloses => hnot hcloses.closes⟩
  · apply Text.escaped_succ_of_not
    simp [Text.byteIs, hbyte, hopener]
  · rw [Text.bareCount_succ h.start_lt, Text.bareCount_succ h.start_lt, if_pos hbare, if_neg hnot]
    have := h.counted
    omega

/-- A closer that does not balance the part closes a nested one.

**Proof sketch.** The counter was positive, so the delimiters are not equal and the byte counts as a
closer only. As more openers than closers stand in front of it, it does not balance the part. -/
lemma unnest (h : Seen t opener start (depth + 1) i) (hopener : opener ≠ backslash)
    (hbyte : t.byteAt i = some (closerOf opener)) : Seen t opener start depth (i + 1) := by
  have hcounted := h.counted
  have hne : closerOf opener ≠ opener := by
    intro heq
    rw [heq] at hcounted
    omega
  have hbare : t.Bare [closerOf opener] i := Text.bare_byte_iff.mpr ⟨hbyte, h.unescaped⟩
  have hnot : ¬ t.Bare [opener] i := by
    intro hopens
    exact hne (Option.some.inj (hbyte.symm.trans hopens.byteAt))
  refine ⟨Nat.lt_succ_of_lt h.start_lt, ?_, ?_, h.unclosed_succ fun hcloses => ?_⟩
  · apply Text.escaped_succ_of_not
    simp [Text.byteIs, hbyte, closerOf_ne_backslash hopener]
  · rw [Text.bareCount_succ h.start_lt, Text.bareCount_succ h.start_lt, if_pos hbare, if_neg hnot]
    omega
  · have := hcloses.balanced hne
    omega

/-- The first closer that balances the part closes it. -/
lemma isLeast (h : Seen t opener start 0 i) (hopener : opener ≠ backslash) (hlt : i < hi)
    (hbyte : t.byteAt i = some (closerOf opener)) :
    IsLeast {j | j < hi ∧ ClosesPart t opener start j} i := by
  have hbare : t.Bare [closerOf opener] i := Text.bare_byte_iff.mpr ⟨hbyte, h.unescaped⟩
  have hcounted := h.counted
  refine ⟨⟨hlt, hopener, h.start_lt, hbare, fun _ => by omega⟩, fun j hj => ?_⟩
  exact Nat.le_of_not_lt fun hji => h.unclosed j hji hj.2

/-- The rest of a scan that has not met what closes the part yet.

**Proof sketch.** Induction along the scan, with a case for every branch. In each of them `Seen` is
carried to the next offset that is not escaped. -/
lemma ends (h : Seen t opener start depth i) (hopener : opener ≠ backslash) :
    (∃ j, IsLeast {j | j < hi ∧ ClosesPart t opener start j} j ∧
      closeFrom t opener (closerOf opener) depth i hi = j + 1) ∨
    ((∀ j < hi, ¬ ClosesPart t opener start j) ∧
      closeFrom t opener (closerOf opener) depth i hi = hi) := by
  fun_induction closeFrom t opener (closerOf opener) depth i hi with
  -- a backslash takes the next byte along
  | case1 depth i hlt hb ih => exact ih (h.escape hopener hb)
  | case2 depth i hlt hb ho ih =>
    rw [Bool.and_eq_true, bne_iff_ne] at ho
    exact ih (h.nest hopener (Text.byteIs_eq_iff.mp ho.2) ho.1)
  | case3 i hlt hb ho hc => exact .inl ⟨i, h.isLeast hopener hlt (Text.byteIs_eq_iff.mp hc), rfl⟩
  | case4 i hlt hb ho hc d ih => exact ih (h.unnest hopener (Text.byteIs_eq_iff.mp hc))
  | case5 depth i hlt hb ho hc ih =>
    have hcloser : ¬ t.Bare [closerOf opener] i := fun hbare => hc (Text.byteIs_eq_iff.mpr hbare.byteAt)
    have hnot : ¬ t.Bare [opener] i := by
      intro hbare
      by_cases heq : closerOf opener = opener
      · exact hcloser (by rwa [heq])
      · exact ho (by simp [heq, Text.byteIs_eq_iff.mpr hbare.byteAt])
    refine ih (h.skip (Nat.le_succ i) (Text.free_succ hnot) (Text.free_succ hcloser) ?_)
    exact Text.escaped_succ_of_not (by simpa using hb)
  | case6 depth i hge => exact .inr ⟨fun j hj => h.unclosed j (by omega), rfl⟩

end Seen

/-- Behind the opener the scan has seen nothing.

**Proof sketch.** No byte lies between the opener and the offset behind it. -/
lemma seen_start (hbyte : t.byteAt start = some opener) (hopener : opener ≠ backslash) :
    Seen t opener start 0 (start + 1) where
  start_lt := Nat.lt_succ_self start
  unescaped := by
    apply Text.escaped_succ_of_not
    simp [Text.byteIs, hbyte, hopener]
  counted := by simp
  unclosed := by
    intro j hj hcloses
    have := hcloses.start_lt
    omega

/-- **The scan ends a part at its balanced delimiter.** It succeeds on every part that something opens,
also on one that the end of the range cuts off.

**Proof sketch.** By `Seen.ends` from behind the opener. A part ends in one place, so the converse
follows. -/
theorem delimitedEnd_eq_ok_iff : delimitedEnd t start hi = .ok stop ↔ IsPartEnd t start hi stop := by
  have hends : ∀ stop, delimitedEnd t start hi = .ok stop → IsPartEnd t start hi stop := by
    intro stop h
    unfold delimitedEnd at h
    split at h
    · rename_i opener hbyte
      cases h
      by_cases hopener : opener = backslash
      · subst hopener
        refine ⟨_, hbyte, .inr ⟨fun i _ hcloses => hcloses.opener_ne rfl, ?_⟩⟩
        exact closeFrom_backslash t 0 (start + 1) hi
      · exact ⟨opener, hbyte, (seen_start hbyte hopener).ends hopener⟩
    · cases h
  refine ⟨hends stop, fun h => ?_⟩
  obtain ⟨opener, hbyte, -⟩ := id h
  have hok : delimitedEnd t start hi = .ok (closeFrom t opener (closerOf opener) 0 (start + 1) hi) := by
    simp [delimitedEnd, hbyte]
  rw [hok, h.unique (hends _ hok)]

/-- A part that ends in front of the end of its range ends behind its closer. -/
lemma IsPartEnd.byteAt_closer (h : IsPartEnd t start hi stop) (hbyte : t.byteAt start = some opener)
    (hlt : stop < hi) : t.byteAt (stop - 1) = some (closerOf opener) := by
  obtain ⟨opener', hbyte', ⟨i, hi, rfl⟩ | ⟨-, rfl⟩⟩ := h
  · obtain rfl := Option.some.inj (hbyte.symm.trans hbyte')
    exact hi.1.2.closes.byteAt
  · exact absurd hlt (Nat.lt_irrefl _)

/-! ### The next delimiter -/

/-- Blanks. -/
def isBlank (b : UInt8) : Bool :=
  b == 0x20 || b == 0x09

/-- The offset of a delimiter in a range, in front of which stand blanks only. -/
structure NextDelimiter (t : Text) (pos hi second : Nat) : Prop where
  pos_le : pos ≤ second
  lt_hi : second < hi
  blanks : ∀ j, pos ≤ j → j < second → t.byteIs isBlank j = true
  delimiter : t.byteIs isDelimiter second = true

/-- A delimiter is no blank. -/
lemma not_isBlank_of_isDelimiter {i : Nat} (h : t.byteIs isDelimiter i = true) :
    t.byteIs isBlank i = false := by
  have hall : ∀ n : Fin 256, isDelimiter (UInt8.ofFin n) = true → isBlank (UInt8.ofFin n) = false := by
    decide +kernel
  obtain ⟨b, hbyte, hb⟩ := Text.byteIs_iff.mp h
  simpa [Text.byteIs, hbyte] using hall b.toFin (by simpa using hb)

/-- The run of blanks stops at a delimiter, because no delimiter is a blank.

**Proof sketch.** The run of blanks cannot go beyond a delimiter, nor stop before it. -/
theorem delimiterAt_eq_some_iff {second : Nat} (hsize : hi ≤ t.size) :
    delimiterAt t pos hi = some second ↔ NextDelimiter t pos hi second := by
  have hdef : delimiterAt t pos hi =
      if t.skipBytes isBlank pos hi < hi && t.byteIs isDelimiter (t.skipBytes isBlank pos hi) then
        some (t.skipBytes isBlank pos hi) else none := rfl
  rw [hdef]
  constructor
  · intro h
    split at h
    · rename_i hc
      obtain rfl := Option.some.inj h
      rw [Bool.and_eq_true, decide_eq_true_eq] at hc
      refine ⟨Text.le_skipBytes .., hc.1, fun j hj hlt => ?_, hc.2⟩
      exact (Text.lt_skipBytes_iff hsize hj (by omega)).mp hlt j hj (Nat.le_refl j)
    · cases h
  · intro h
    have hskip : t.skipBytes isBlank pos hi = second := by
      apply Nat.le_antisymm
      · refine Nat.le_of_not_lt fun hlt => ?_
        have hblank := (Text.lt_skipBytes_iff hsize h.pos_le h.lt_hi).mp hlt second h.pos_le
          (Nat.le_refl second)
        rw [not_isBlank_of_isDelimiter h.delimiter] at hblank
        cases hblank
      · refine Nat.le_of_not_lt fun hlt => ?_
        have hle := Text.le_skipBytes t isBlank pos hi
        have hrun := (Text.lt_skipBytes_iff (p := isBlank) hsize hle (Nat.lt_trans hlt h.lt_hi)).mpr
          fun j hj hji => h.blanks j hj (by omega)
        exact absurd hrun (Nat.lt_irrefl _)
    rw [hskip, if_pos (by simp [h.lt_hi, h.delimiter])]

/-- No delimiter is found where there is none. -/
lemma delimiterAt_eq_none_iff (hsize : hi ≤ t.size) :
    delimiterAt t pos hi = none ↔ ∀ second, ¬ NextDelimiter t pos hi second := by
  simp only [← delimiterAt_eq_some_iff hsize, Option.eq_none_iff_forall_ne_some, ne_eq]

/-! ### The whole operator -/

/-- Where an operator with two parts ends whose first part goes from `start` to `first`. Brackets open
the second part anew, any other delimiter is shared by both parts. -/
inductive SecondPart (t : Text) (start hi first : Nat) : Nat → Prop
  /-- The second part is opened by the next delimiter. -/
  | bracketed {opener : UInt8} {second stop : Nat} (hopener : t.byteAt start = some opener)
      (hnests : closerOf opener ≠ opener) (hsecond : NextDelimiter t first hi second)
      (hstop : IsPartEnd t second hi stop) : SecondPart t start hi first stop
  /-- No delimiter follows. -/
  | missing {opener : UInt8} (hopener : t.byteAt start = some opener)
      (hnests : closerOf opener ≠ opener) (hnone : ∀ second, ¬ NextDelimiter t first hi second) :
      SecondPart t start hi first first
  /-- The delimiter that closes the first part opens the second. -/
  | shared {opener : UInt8} {stop : Nat} (hopener : t.byteAt start = some opener)
      (hplain : closerOf opener = opener) (hmiddle : t.byteAt (first - 1) = some opener)
      (hstop : IsPartEnd t (first - 1) hi stop) : SecondPart t start hi first stop

/-- Where an operator ends whose first delimiter stands at `start` in a range up to `hi`. -/
inductive OperatorEnds (r : QuoteOperatorRules) (t : Text) (operator : Mark) (start hi : Nat) :
    Nat → Prop
  /-- An operator with one part ends with it. -/
  | onePart {stop : Nat} (hone : operator ∉ r.twoPart) (hstop : IsPartEnd t start hi stop) :
      OperatorEnds r t operator start hi stop
  /-- The first of two parts takes the rest of the range. -/
  | cut (htwo : operator ∈ r.twoPart) (hstop : IsPartEnd t start hi hi) :
      OperatorEnds r t operator start hi hi
  /-- The first of two parts ends in the range. -/
  | twoPart {first stop : Nat} (htwo : operator ∈ r.twoPart) (hfirst : IsPartEnd t start hi first)
      (hlt : first < hi) (hstop : SecondPart t start hi first stop) :
      OperatorEnds r t operator start hi stop

/-- The second part of an operator ends where its rule says.

**Proof sketch.** By cases on whether the first delimiter is a bracket, and on whether a delimiter
follows. -/
lemma secondPart_ends {first : Nat} (hsize : hi ≤ t.size) (hopener : t.byteAt start = some opener)
    (hfirst : IsPartEnd t start hi first) (hlt : first < hi)
    (h : (if t.byteIs (fun b => closerOf b != b) start then
        match delimiterAt t first hi with
        | some second => delimitedEnd t second hi
        | none => pure first
      else do delimitedEnd t (← minus first 1) hi) = .ok stop) :
    SecondPart t start hi first stop := by
  have hnests : t.byteIs (fun b => closerOf b != b) start = (closerOf opener != opener) := by
    simp [Text.byteIs, hopener]
  rw [hnests] at h
  split at h
  · rename_i hne
    rw [bne_iff_ne] at hne
    split at h
    · rename_i second hsecond
      exact .bracketed hopener hne ((delimiterAt_eq_some_iff hsize).mp hsecond)
        (delimitedEnd_eq_ok_iff.mp h)
    · rename_i hnone
      cases h
      exact .missing hopener hne ((delimiterAt_eq_none_iff hsize).mp hnone)
  · rename_i heq
    have heq' : closerOf opener = opener := by simpa using heq
    obtain ⟨middle, hmiddle, h⟩ := bind_eq_ok.mp h
    have hclose := hfirst.byteAt_closer hopener hlt
    obtain rfl : middle = first - 1 := by
      have := minus_eq_ok_iff.mp hmiddle
      omega
    exact .shared hopener heq' (heq' ▸ hclose) (delimitedEnd_eq_ok_iff.mp h)

/-- **An operator ends with its last part.** The end is found for every operator whose first delimiter
stands in the range.

**Proof sketch.** By cases on whether the operator has two parts and on whether the first one ends in
front of the range. -/
theorem operatorEnd_ends (r : QuoteOperatorRules) (operator : Mark) (hlt : start < hi)
    (hsize : hi ≤ t.size) :
    ∃ stop, r.operatorEnd t operator start hi = .ok stop ∧ r.OperatorEnds t operator start hi stop := by
  obtain ⟨stop, hstop, hbounds⟩ := r.operatorEnd_ensures operator hlt hsize
  refine ⟨stop, hstop, ?_⟩
  obtain ⟨first, hfirst, h⟩ := bind_eq_ok.mp hstop
  have hend := delimitedEnd_eq_ok_iff.mp hfirst
  obtain ⟨opener, hopener, -⟩ := id hend
  by_cases htwo : operator ∈ r.twoPart
  · by_cases hin : first < hi
    · rw [if_pos (by simp [htwo, hin])] at h
      exact .twoPart htwo hend hin (secondPart_ends hsize hopener hend hin h)
    · rw [if_neg (by simp [hin])] at h
      cases h
      have hle := (delimitedEnd_ensures hlt hsize).elim hfirst
      obtain rfl : stop = hi := by omega
      exact .cut htwo hend
  · rw [if_neg (by simp [htwo])] at h
    cases h
    exact .onePart htwo hend

end QuoteOperatorRules

/-! ### Programs -/

/-- An interval of a scope up to `hi` that starts with an operator and ends with its last part. -/
def Interval.IsOperator (iv : Interval) (r : QuoteOperatorRules) (t : Text) (hi : Nat) : Prop :=
  iv.kind = .quoteOperator ∧ ∃ operator start, r.operatorAt t iv.start hi = some operator ∧
    QuoteOperatorRules.NextDelimiter t (iv.start + operator.length) hi start ∧
    r.OperatorEnds t operator start hi iv.stop

/-- What a scan of a scope accepts has the shape of a quote operator. -/
lemma Frame.operators_isOperator {f : Frame} {l : Layout} {r : QuoteOperatorRules}
    (hf : f.WellFormed) {harvest : Sweep.Harvest Interval}
    (h : Sweep.collect (f.operatorStep l r) f.hi f.lo () = .ok harvest) :
    ∀ iv ∈ harvest.items, iv.IsOperator r f.text f.hi := by
  intro iv hiv
  obtain ⟨hkind, operator, start, hfound, hstop⟩ := operators_found h iv hiv
  obtain ⟨-, hoperator, hdelimiter⟩ := operatorCandidate_eq_some hfound
  have hnext := (QuoteOperatorRules.delimiterAt_eq_some_iff hf.hi_le).mp hdelimiter
  obtain ⟨stop, hstop', hends⟩ := r.operatorEnd_ends operator hnext.lt_hi hf.hi_le
  obtain rfl : iv.stop = stop := Except.ok.inj (hstop.symm.trans hstop')
  exact ⟨hkind, operator, start, hoperator, hnext, hends⟩

/-- The primitive that maps the quote operators of a scope maps quote operators.

**Proof sketch.** The set holds what was there and what the scan has accepted. -/
lemma Pass.mapOperators_isOperator {s : Scene} {f : Frame} {p q : Pass} {r : QuoteOperatorRules}
    (hf : f.WellFormed) (hr : f.dialect.operators = some r)
    (hp : ∀ iv ∈ p.layout.composite.operators.intervals, iv.IsOperator r f.text f.hi)
    (h : p.mapOperators s f = .ok q) :
    ∀ iv ∈ q.layout.composite.operators.intervals, iv.IsOperator r f.text f.hi := by
  rcases mapOperators_cases h with ⟨-, rfl⟩ | ⟨rules, harvest, set, changed, hrules, hharvest, hset, rfl⟩
  · exact hp
  · obtain rfl := Option.some.inj (hr.symm.trans hrules)
    rw [layout_repairIf]
    intro iv hiv
    rcases IntervalSet.mem_addAll.mp (hset ▸ hiv) with hfound | hiv
    · exact Frame.operators_isOperator hf hharvest iv hfound
    · exact hp iv hiv

/-- A program maps quote operators only.

**Proof sketch.** Each primitive keeps it: one maps quote operators, all others leave the set alone. -/
theorem Primitive.runAll_isOperator {s : Scene} {f : Frame} {p q : Pass} {r : QuoteOperatorRules}
    {program : List Primitive}
    (hprogram : ∀ primitive ∈ program, primitive = .quoteOperators ∨
      mapsSort .quoteOperators primitive = false)
    (hf : f.WellFormed) (hr : f.dialect.operators = some r)
    (hp : ∀ iv ∈ p.layout.composite.operators.intervals, iv.IsOperator r f.text f.hi)
    (h : runAll s program f p = .ok q) :
    ∀ iv ∈ q.layout.composite.operators.intervals, iv.IsOperator r f.text f.hi := by
  refine runAll_keeps (P := fun p => ∀ iv ∈ p.layout.composite.operators.intervals,
    iv.IsOperator r f.text f.hi) (fun primitive hmem p₁ p₂ hp₁ h₁ => ?_) hp h
  rcases hprogram primitive hmem with rfl | hother
  · simp only [run] at h₁
    exact Pass.mapOperators_isOperator hf hr hp₁ h₁
  · have hsame : p₂.layout.composite.operators = p₁.layout.composite.operators :=
      Option.some.inj (run_sort primitive f p₁ p₂ hother h₁)
    rwa [hsame]

/-- A pass over a Perl text maps quote operators only, whatever section it paints.

**Proof sketch.** A pass starts with empty sets and runs the program of Perl. -/
lemma Profile.runPass_isOperator {doc : Buffer} {start length : Nat} {detect : Bool} {layout : Layout}
    {nested : IntervalSet} {pass : Pass} (hdoc : doc.text.Valid)
    (h : perl.runPass doc start length detect layout nested = .ok pass) :
    ∀ iv ∈ pass.layout.composite.operators.intervals,
      iv.IsOperator Dialect.perlOperators doc.text doc.text.size := by
  have hprogram : ∀ primitive ∈ perl.program, primitive = .quoteOperators ∨
      Primitive.mapsSort .quoteOperators primitive = false := by
    simp [perl, podStarts, Primitive.mapsSort, Primitive.brackets, Primitive.braces]
  have hf := Frame.wellFormed_document hdoc perl.dialect
  unfold runPass at h
  refine Primitive.runAll_isOperator hprogram hf rfl ?_ h
  -- a pass starts with empty sets
  intro iv hiv
  exact absurd hiv (Array.not_mem_empty iv)

namespace Painter

open QuoteOperatorRules in
/-- **Quote operators end at their balanced delimiters.** In every text and every range of it:

* the scan for the end of a part answers the offset behind the first byte that closes the part, and the
  end of the range if there is none;
* the end of an operator is the end of its last part.

A painter whose sets are in order gives every Perl text a full pass, and after it every interval of the
quote operators starts with an operator and ends where that operator ends. The same holds of the quote
operators that a pass over any section of a Perl text maps.

**Proof sketch.** Up to what closes a part the counter of the scan is the number of openers less the
number of closers, and an escaped byte changes neither. A program maps quote operators by one primitive
only, which takes their ends from the scan. -/
theorem full_operators :
    (∀ (t : Text) (start hi : Nat), start < hi → hi ≤ t.size →
      ∃ stop, delimitedEnd t start hi = .ok stop ∧
        ∀ stop', IsPartEnd t start hi stop' ↔ stop' = stop) ∧
    (∀ (r : QuoteOperatorRules) (t : Text) (operator : Mark) (start hi : Nat),
      start < hi → hi ≤ t.size →
        ∃ stop, r.operatorEnd t operator start hi = .ok stop ∧
          r.OperatorEnds t operator start hi stop) ∧
    (∀ (doc : Buffer) (p : Painter), doc.text.Valid → p.layout.HistoryOrdered →
      ∃ p' doc', p.full .perl doc = .ok (p', doc') ∧
        ∀ iv ∈ p'.layout.composite.operators.intervals,
          iv.IsOperator Dialect.perlOperators doc.text doc.text.size) ∧
    ∀ (doc : Buffer) (start length : Nat) (detect : Bool) (layout : Layout) (nested : IntervalSet)
      (pass : Pass), doc.text.Valid →
        Profile.perl.runPass doc start length detect layout nested = .ok pass →
          ∀ iv ∈ pass.layout.composite.operators.intervals,
            iv.IsOperator Dialect.perlOperators doc.text doc.text.size := by
  refine ⟨fun t start hi hlt hsize => ?_, fun r t operator start hi hlt hsize => ?_,
    fun doc p hdoc hp => ?_, fun doc start length detect layout nested pass hdoc hpass => ?_⟩
  · obtain ⟨stop, hstop, -⟩ := delimitedEnd_ensures hlt hsize
    have hend := delimitedEnd_eq_ok_iff.mp hstop
    exact ⟨stop, hstop, fun stop' => ⟨fun h => h.unique hend, fun h => h ▸ hend⟩⟩
  · exact r.operatorEnd_ends operator hlt hsize
  · have hperl : Profile.perl ∈ Profile.builtIn := by simp [Profile.builtIn]
    obtain ⟨⟨p', doc'⟩, hfull, -⟩ := full_ensures (Profile.sound_of_mem_builtIn hperl) hdoc hp
    refine ⟨p', doc', hfull, ?_⟩
    obtain ⟨pass, hpass, hfull⟩ := bind_eq_ok.mp hfull
    cases hfull
    exact Profile.runPass_isOperator hdoc hpass
  · exact Profile.runPass_isOperator hdoc hpass

/-- A substitution with brackets in brackets, one of them escaped, and other brackets around its second
part, a transliteration that shares an unescaped slash, one without a second part, and a string that the
end of the text cuts off. The local pass is over the first line. -/
theorem full_operators_mixed :
    ∃ (t : Text) (p' : Painter) (doc' : Buffer) (pass : Pass),
      t = Text.ofString "s\x7ba\\\x7d\x7b\x7d\x7d <b>;tr/\\//b/;\ny(a);q[x" ∧
      QuoteOperatorRules.delimitedEnd t 1 t.size = .ok 8 ∧
      QuoteOperatorRules.IsPartEnd t 1 t.size 8 ∧
      Dialect.perlOperators.OperatorEnds t (mark "s") 1 t.size 12 ∧
      Painter.new.full .perl (Buffer.new t) = .ok (p', doc') ∧
      p'.layout.composite.operators.intervals = #[⟨0, 12, .quoteOperator⟩, ⟨13, 21, .quoteOperator⟩,
        ⟨23, 27, .quoteOperator⟩, ⟨28, 31, .quoteOperator⟩] ∧
      (∀ iv ∈ p'.layout.composite.operators.intervals,
        iv.IsOperator Dialect.perlOperators t t.size) ∧
      Profile.perl.runPass (Buffer.new t) 0 23 true .empty .empty = .ok pass ∧
      ∀ iv ∈ pass.layout.composite.operators.intervals,
        iv.IsOperator Dialect.perlOperators t t.size := by
  let t := Text.ofString "s\x7ba\\\x7d\x7b\x7d\x7d <b>;tr/\\//b/;\ny(a);q[x"
  have ht : t.Valid := Text.valid_ofString _
  have hlt : 1 < t.size := by decide +kernel
  obtain ⟨hparts, hoperators, hfull, hpasses⟩ := full_operators
  obtain ⟨stop, hstop, hends⟩ := hparts t 1 t.size hlt (Nat.le_refl _)
  obtain rfl : stop = 8 := by
    have heval : QuoteOperatorRules.delimitedEnd t 1 t.size = .ok 8 := by decide +kernel
    exact Except.ok.inj (hstop.symm.trans heval)
  obtain ⟨last, hlast, hsub⟩ :=
    hoperators Dialect.perlOperators t (mark "s") 1 t.size hlt (Nat.le_refl _)
  obtain rfl : last = 12 := by
    have heval : Dialect.perlOperators.operatorEnd t (mark "s") 1 t.size = .ok 12 := by decide +kernel
    exact Except.ok.inj (hlast.symm.trans heval)
  obtain ⟨p', doc', hpainter, hmapped⟩ :=
    hfull (Buffer.new t) .new ht Layout.historyOrdered_empty
  have hrun : (do
      let r ← Painter.new.full .perl (Buffer.new t)
      demand (r.1.layout.composite.operators.intervals =
        (#[⟨0, 12, .quoteOperator⟩, ⟨13, 21, .quoteOperator⟩, ⟨23, 27, .quoteOperator⟩,
          ⟨28, 31, .quoteOperator⟩] : Array Interval)) .outOfRange) = .ok () := by
    decide +kernel
  obtain ⟨r, hr, hrun⟩ := bind_eq_ok.mp hrun
  obtain rfl := Except.ok.inj (hpainter.symm.trans hr)
  have hlocal : (do
      let _ ← Profile.perl.runPass (Buffer.new t) 0 23 true .empty .empty
      pure ()) = (.ok () : Checked Unit) := by
    decide +kernel
  obtain ⟨pass, hpass, -⟩ := bind_eq_ok.mp hlocal
  have hpassed := hpasses (Buffer.new t) 0 23 true .empty .empty pass ht hpass
  exact ⟨t, p', doc', pass, rfl, hstop, (hends 8).mpr rfl, hsub, hpainter,
    of_decide_eq_true (demand_eq_ok_iff.mp hrun), hmapped, hpass, hpassed⟩

end Painter

end LexPaint
