import LexPaint.Proofs.LiteralStarts
import LexPaint.Proofs.SetInvariants

set_option relaxedAutoImplicit false
set_option autoImplicit false

/-!
# Heredocs that are opened inside quote operators

Heredocs are mapped before quote operators, so a quote operator can turn out to contain the token that
opens a heredoc. Such a heredoc is not meant to count. But the token and the body are two intervals of
one set, and the query looks only at the one that contains the offset: a part of a heredoc is ignored if
it starts inside a quote operator itself. So the token is ignored, and the body is ignored with it only
if some quote operator goes on to where the body starts.

## Main definitions

* `IntervalSet.HasHeredoc`: a token and its body in a set.

## Main results

* `Layout.Regular.inEither_eq_none`, `Layout.Regular.inEither_eq_start`: which parts of heredocs are
  ignored.
* `Painter.full_heredocs_perl`: what becomes of a heredoc whose token starts inside a quote operator.
-/

namespace LexPaint

/-! ### Containment in regular sets -/

namespace IntervalSet

variable {t : Text} {s : IntervalSet} {iv : Interval} {pos : Nat}

/-- The token that opens a heredoc, and right behind it in the set the body that belongs to it. -/
def HasHeredoc (s : IntervalSet) (tag body : Interval) : Prop :=
  tag.kind = .heredocTag ∧ body.kind = .heredoc ∧
    ∃ k : Nat, s.intervals[k]? = some tag ∧ s.intervals[k + 1]? = some body

/-- The token and the body are in the set. -/
lemma HasHeredoc.mem {tag body : Interval} (h : s.HasHeredoc tag body) :
    tag ∈ s.intervals ∧ body ∈ s.intervals := by
  obtain ⟨-, -, k, htag, hbody⟩ := h
  exact ⟨Array.mem_of_getElem? htag, Array.mem_of_getElem? hbody⟩

namespace Regular

/-- Intervals of a regular set are nested. -/
lemma nested (h : s.Regular t) : s.Nested := by
  refine h.disjoint.imp_of_mem fun {a b} ha hb hab => ?_
  have h1 := (h.clean a (by simpa using ha)).nonempty
  have h2 := (h.clean b (by simpa using hb)).nonempty
  omega

/-- An offset in an interval of a regular set is found there. -/
lemma inString_eq (h : s.Regular t) (hiv : iv ∈ s.intervals) (hpos : iv.contains pos = true) :
    s.inString pos = some iv.start := by
  have htiles : Tiles 0 t.size s.intervals.toList :=
    ⟨fun x hx => ⟨Nat.zero_le _, Nat.le_of_lt (h.clean x (by simpa using hx)).nonempty,
      h.within x (by simpa using hx)⟩, h.disjoint⟩
  rw [inString, htiles.intervalAt_eq_some_iff.mpr ⟨hiv, hpos⟩]
  rfl

/-- An offset that no interval covers is not found. -/
lemma inString_eq_none (h : s.Regular t) (hout : ¬ s.Covers pos) : s.inString pos = none := by
  cases hin : s.inString pos with
  | none => rfl
  | some start => exact absurd ((isSome_inString_iff h.nested).mp (by rw [hin]; rfl)) hout

end Regular

end IntervalSet

/-! ### Parts of heredocs -/

namespace Layout.Regular

variable {t : Text} {l : Layout} {part : Interval} {pos : Nat}

/-- A part of a heredoc that starts inside a quote operator is ignored. -/
lemma inEither_eq_none (h : l.Regular t) (hpart : part ∈ l.composite.heredocs.intervals)
    (hpos : part.contains pos = true) (hout : ¬ l.composite.operators.Covers pos)
    (hin : l.composite.operators.Covers part.start) : l.composite.inEither pos = none := by
  obtain ⟨start, hstart⟩ :=
    Option.isSome_iff_exists.mp ((IntervalSet.isSome_inString_iff h.operators.nested).mpr hin)
  have hignored : l.composite.heredocAt pos = none := by
    rw [CompositeSet.heredocAt, h.heredocs.inString_eq hpart hpos, Option.filter_some, hstart]
    rfl
  rw [CompositeSet.inEither, hignored, h.operators.inString_eq_none hout]
  rfl

/-- A part of a heredoc that starts outside of quote operators counts. -/
lemma inEither_eq_start (h : l.Regular t) (hpart : part ∈ l.composite.heredocs.intervals)
    (hpos : part.contains pos = true) (hout : ¬ l.composite.operators.Covers part.start) :
    l.composite.inEither pos = some part.start := by
  have hcounts : l.composite.heredocAt pos = some part.start := by
    rw [CompositeSet.heredocAt, h.heredocs.inString_eq hpart hpos, Option.filter_some,
      h.operators.inString_eq_none hout]
    rfl
  rw [CompositeSet.inEither, hcounts]

end Layout.Regular

/-! ### Full passes -/

namespace Painter

/-- **Heredocs opened inside quote operators.** Every valid Perl text gets its full pass. Take a heredoc
in the result whose token starts inside a quote operator, and an offset outside of all quote operators.
If the offset is in the token, it is in no literal. If it is in the body, it is in no literal exactly
when a quote operator contains the start of the body; otherwise the body counts as a heredoc although
its token does not.

**Proof sketch.** The heredocs and the quote operators are regular sets, so each query finds the only
interval that contains the offset. -/
theorem full_heredocs_perl {doc : Buffer} (hdoc : doc.text.Valid) :
    (∀ p : Painter, p.layout.HistoryOrdered → ∃ r, p.full .perl doc = .ok r) ∧
    ∀ (p p' : Painter) (doc' : Buffer), p.full .perl doc = .ok (p', doc') →
      ∀ tag body, p'.layout.composite.heredocs.HasHeredoc tag body →
        p'.layout.composite.operators.Covers tag.start →
        ∀ pos, ¬ p'.layout.composite.operators.Covers pos →
          (tag.contains pos = true → p'.layout.composite.inEither pos = none) ∧
          (body.contains pos = true →
            (p'.layout.composite.inEither pos = none ↔
              p'.layout.composite.operators.Covers body.start) ∧
            (p'.layout.composite.inEither pos ≠ none →
              p'.layout.composite.inEither pos = some body.start)) := by
  have hperl : Profile.perl ∈ Profile.builtIn := by simp [Profile.builtIn]
  refine ⟨fun p hp => ?_, fun p p' doc' hfull tag body hpair hopener pos hout => ?_⟩
  · obtain ⟨r, hr, -⟩ := full_ensures (Profile.sound_of_mem_builtIn hperl) hdoc hp
    exact ⟨r, hr⟩
  · obtain ⟨pass, hpass, hcommit⟩ := bind_eq_ok.mp hfull
    obtain ⟨rfl, rfl⟩ := Prod.mk.inj (Except.ok.inj hcommit)
    have hregular := (Profile.perl.runPass_regular hperl hdoc hpass).commit
    obtain ⟨htag, hbody⟩ := hpair.mem
    refine ⟨fun hpos => hregular.inEither_eq_none htag hpos hout hopener, fun hpos => ?_⟩
    by_cases hin : pass.layout.commit.composite.operators.Covers body.start
    · have hnone := hregular.inEither_eq_none hbody hpos hout hin
      exact ⟨iff_of_true hnone hin, fun hne => absurd hnone hne⟩
    · have hstart := hregular.inEither_eq_start hbody hpos hin
      refine ⟨iff_of_false (fun hnone => ?_) hin, fun _ => hstart⟩
      cases hstart.symm.trans hnone

/-- A quote operator that ends on the first line of the body: the rest of the body is code. -/
theorem full_heredocs_perl_code :
    ∃ p doc', Painter.new.full .perl (Buffer.new (Text.ofString "q(<<E\n); my $x\nE\n")) =
        .ok (p, doc') ∧
      p.layout.composite.operators.intervals = #[⟨0, 7, .quoteOperator⟩] ∧
      p.layout.composite.heredocs.HasHeredoc ⟨2, 5, .heredocTag⟩ ⟨6, 16, .heredoc⟩ ∧
      p.layout.composite.inEither 9 = none := by
  have hdoc : (Buffer.new (Text.ofString "q(<<E\n); my $x\nE\n")).text.Valid := Text.valid_ofString _
  have hrun : (do
      let r ← Painter.new.full .perl (Buffer.new (Text.ofString "q(<<E\n); my $x\nE\n"))
      demand (r.1.layout.composite.operators.intervals = #[Interval.mk 0 7 .quoteOperator] ∧
        r.1.layout.composite.heredocs.intervals =
          #[Interval.mk 2 5 .heredocTag, Interval.mk 6 16 .heredoc]) .outOfRange) = .ok () := by
    decide +kernel
  obtain ⟨⟨p, doc'⟩, hfull, hrun⟩ := bind_eq_ok.mp hrun
  obtain ⟨hoperators, hheredocs⟩ := of_decide_eq_true (demand_eq_ok_iff.mp hrun)
  dsimp only at hoperators hheredocs
  have hpair : p.layout.composite.heredocs.HasHeredoc ⟨2, 5, .heredocTag⟩ ⟨6, 16, .heredoc⟩ :=
    ⟨rfl, rfl, 0, by rw [hheredocs]; rfl, by rw [hheredocs]; rfl⟩
  have hcovers (pos : Nat) : p.layout.composite.operators.Covers pos ↔ pos < 7 := by
    simp [IntervalSet.Covers, hoperators]
  have hbody := ((full_heredocs_perl hdoc).2 _ _ _ hfull _ _ hpair ((hcovers 2).mpr (by decide)) 9
    (by rw [hcovers]; decide)).2 rfl
  exact ⟨p, doc', hfull, hoperators, hpair, hbody.1.mpr ((hcovers 6).mpr (by decide))⟩

/-- A quote operator that ends on the line of the token: the body counts as a heredoc, although its
token is inside the quote operator. -/
theorem heredoc_counts_without_token :
    ∃ p doc', Painter.new.full .perl (Buffer.new (Text.ofString "q(<<E);\nmy\nE\n")) = .ok (p, doc') ∧
      p.layout.composite.operators.intervals = #[⟨0, 6, .quoteOperator⟩] ∧
      p.layout.composite.heredocs.intervals = #[⟨2, 5, .heredocTag⟩, ⟨8, 12, .heredoc⟩] ∧
      p.layout.composite.inEither 8 = some 8 ∧ doc'.styles[8]? = some .string := by
  have hrun : (do
      let r ← Painter.new.full .perl (Buffer.new (Text.ofString "q(<<E);\nmy\nE\n"))
      demand (r.1.layout.composite.operators.intervals = #[Interval.mk 0 6 .quoteOperator] ∧
        r.1.layout.composite.heredocs.intervals =
          #[Interval.mk 2 5 .heredocTag, Interval.mk 8 12 .heredoc] ∧
        r.1.layout.composite.inEither 8 = some 8 ∧ r.2.styles[8]? = some Style.string) .outOfRange) =
        .ok () := by
    decide +kernel
  obtain ⟨⟨p, doc'⟩, hfull, hrun⟩ := bind_eq_ok.mp hrun
  exact ⟨p, doc', hfull, of_decide_eq_true (demand_eq_ok_iff.mp hrun)⟩

end Painter

end LexPaint
