import LexPaint.Proofs.EditedTexts
import LexPaint.Proofs.LiteralTwins

set_option relaxedAutoImplicit false
set_option autoImplicit false

/-!
# Heredocs before and after an edit

Whether a heredoc counts depends on where it starts: one that starts inside a quote operator does not.
So for an offset behind an edit it matters where the heredoc there starts, even if that is in the
edited section. The comparison of layouts does not see it, but the comparison of lengths does: if
nothing has changed there, then no heredoc that reaches beyond the section starts in it or before it.
For such a heredoc would have moved with what is behind the section, and the line that opens it would
not.

## Main definitions

* `HeredocsAgree`: two lists of heredocs that are the same up to an offset.
* `Dialect.OpensOnLine`: dialects that decide on the line of an opener whether it counts.

## Main results

* `Frame.heredocs_agree`: documents that begin with the same lines have the same heredocs there.
* `EditWindow.Around.le_start_of_heredoc`: a heredoc that reaches beyond the edited section.
* `EditWindow.inEither_before`, `EditWindow.Around.inEither_after`: which offsets lie in heredocs or
  quote operators.
-/

namespace LexPaint

/-! ### Shared lines -/

/-- The heredocs lie beyond an offset. -/
def HeredocsBeyond (n : Nat) (l : List (Interval × Interval)) : Prop :=
  ∀ x ∈ l, n ≤ x.1.start ∧ n < x.2.start

/-- Two lists of heredocs are the same up to an offset. The body of the last heredoc that is opened
before the offset starts at the same place in both. -/
inductive HeredocsAgree (n : Nat) :
    List (Interval × Interval) → List (Interval × Interval) → Prop
  | beyond {l l₀ : List (Interval × Interval)} (h : HeredocsBeyond n l) (h₀ : HeredocsBeyond n l₀) :
    HeredocsAgree n l l₀
  | last {x x₀ : Interval × Interval} {l l₀ : List (Interval × Interval)}
    (hbody : x.2.start = x₀.2.start) (h : HeredocsBeyond n l) (h₀ : HeredocsBeyond n l₀) :
    HeredocsAgree n (x :: l) (x₀ :: l₀)
  | cons (x : Interval × Interval) {l l₀ : List (Interval × Interval)} (h : HeredocsAgree n l l₀) :
    HeredocsAgree n (x :: l) (x :: l₀)

namespace HeredocsAgree

variable {n i : Nat} {l l₀ : List (Interval × Interval)} {iv iv₀ : Interval}

/-- A body among heredocs beyond an offset starts beyond it, and it is not the first entry.

**Proof sketch.** Each heredoc has two entries, its tag and its body. The first entry of all is a
tag. -/
lemma beyond_of_getElem (h : HeredocsBeyond n l) (htags : ∀ x ∈ l, x.1.kind = .heredocTag)
    (hget : (l.flatMap Frame.heredocEntries)[i]? = some iv) (hkind : iv.kind = .heredoc) :
    n < iv.start ∧ 0 < i := by
  constructor
  · obtain ⟨x, hx, hiv⟩ := List.mem_flatMap.mp (List.mem_of_getElem? hget)
    rcases List.mem_pair.mp ((Frame.heredocEntries_sublist x).subset hiv) with rfl | rfl
    · rw [htags x hx] at hkind
      cases hkind
    · exact (h x hx).2
  · refine Nat.pos_of_ne_zero fun hzero => ?_
    subst hzero
    cases l with
    | nil => cases hget
    | cons x rest =>
      have hhead : (List.flatMap Frame.heredocEntries (x :: rest))[0]? = some x.1 := by
        rw [List.flatMap_cons]
        unfold Frame.heredocEntries
        split <;> rfl
      rw [hhead] at hget
      cases hget
      rw [htags x (List.mem_cons_self ..)] at hkind
      cases hkind

/-- The bodies at the same place in two such lists start together, if one of them starts up to the
offset.

**Proof sketch.** Induction on how the lists agree, with the place in the list generalised. Beyond
the offset no body starts up to it. The entries of a heredoc that the lists have in common are the
first two, and for any other entry the place goes down by two. -/
lemma start_eq (h : HeredocsAgree n l l₀) (htags : ∀ x ∈ l, x.1.kind = .heredocTag)
    (htags₀ : ∀ x ∈ l₀, x.1.kind = .heredocTag)
    (hget : (l.flatMap Frame.heredocEntries)[i]? = some iv)
    (hget₀ : (l₀.flatMap Frame.heredocEntries)[i]? = some iv₀) (hkind : iv.kind = .heredoc)
    (hkind₀ : iv₀.kind = .heredoc) (hle : min iv.start iv₀.start ≤ n) : iv.start = iv₀.start := by
  induction h generalizing i with
  | beyond h h₀ =>
    have := (beyond_of_getElem h htags hget hkind).1
    have := (beyond_of_getElem h₀ htags₀ hget₀ hkind₀).1
    omega
  -- the last common heredoc may end at different places, but its body starts at the same
  | @last x x₀ l l₀ hbody h h₀ =>
    have hrest : ∀ y ∈ l, y.1.kind = .heredocTag := fun y hy => htags y (List.mem_cons_of_mem _ hy)
    have hrest₀ : ∀ y ∈ l₀, y.1.kind = .heredocTag :=
      fun y hy => htags₀ y (List.mem_cons_of_mem _ hy)
    -- an entry is the tag, the body, or one of those beyond
    have hentry {x : Interval × Interval} {l : List (Interval × Interval)} {iv : Interval}
        (hx : x.1.kind = .heredocTag) (hl : ∀ y ∈ l, y.1.kind = .heredocTag)
        (hbeyond : HeredocsBeyond n l)
        (hget : ((x :: l).flatMap Frame.heredocEntries)[i]? = some iv)
        (hkind : iv.kind = .heredoc) : iv = x.2 ∧ i = 1 ∨ n < iv.start ∧ 1 < i := by
      rw [List.flatMap_cons] at hget
      unfold Frame.heredocEntries at hget
      cases i with
      | zero =>
        split at hget
        all_goals
          cases hget
          rw [hx] at hkind
          cases hkind
      | succ i =>
        split at hget
        · have := beyond_of_getElem hbeyond hl hget hkind
          exact .inr ⟨this.1, by omega⟩
        · cases i with
          | zero =>
            cases hget
            exact .inl ⟨rfl, rfl⟩
          | succ i =>
            have := beyond_of_getElem hbeyond hl hget hkind
            exact .inr ⟨this.1, by omega⟩
    have h1 := hentry (htags x (List.mem_cons_self ..)) hrest h hget hkind
    have h2 := hentry (htags₀ x₀ (List.mem_cons_self ..)) hrest₀ h₀ hget₀ hkind₀
    rcases h1 with ⟨rfl, hi⟩ | ⟨hlt, hi⟩ <;> rcases h2 with ⟨rfl, hi₀⟩ | ⟨hlt₀, hi₀⟩
    · exact hbody
    all_goals omega
  | cons x h ih =>
    rw [List.flatMap_cons] at hget hget₀
    by_cases hi : i < (Frame.heredocEntries x).length
    · rw [List.getElem?_append_left hi] at hget hget₀
      rw [Option.some.inj (hget.symm.trans hget₀)]
    · rw [List.getElem?_append_right (Nat.le_of_not_lt hi)] at hget hget₀
      exact ih (fun y hy => htags y (List.mem_cons_of_mem _ hy))
        (fun y hy => htags₀ y (List.mem_cons_of_mem _ hy)) hget hget₀

end HeredocsAgree

/-- The heredocs of the dialect follow these rules, and whether an opener counts is decided on its
line. -/
structure Dialect.OpensOnLine (d : Dialect) (r : HeredocRules) : Prop where
  heredocs : d.heredocs = some r
  comments : d.comments = none
  test : d.tests.lookup .heredoc = some .unquoted
  marks : ∀ m ∈ d.lineMarks, m.IsPlain
  opener : r.opener.IsPlain
  flag : r.indentFlag ≠ some newline

/-- Perl decides on the line of an opener whether the heredoc counts. -/
lemma Dialect.perl_opensOnLine : Dialect.perl.OpensOnLine Dialect.perlHeredocs :=
  ⟨rfl, rfl, rfl, by decide, by decide, by decide⟩

namespace Frame

variable {f f₀ : Frame} {r : HeredocRules} {n pos : Nat}

/-- What a step of the sweep for heredocs does in a document.

**Proof sketch.** The step is run with the scope of the document, by cases on the next opener and on
the answer for it. -/
lemma heredocStep_cases (hspans : f.Spans) {cursor : Option CommentCursor}
    {m : Sweep.Move (Option CommentCursor) (Interval × Interval)}
    (h : f.heredocStep r pos cursor = .ok m) :
    r.nextOpener f.text pos = none ∧ m = .stop ∨
      ∃ o refused cursor', r.nextOpener f.text pos = some o ∧
        f.refusesHeredoc o.start cursor = .ok (refused, cursor') ∧
        (refused = true ∧ m = .go .refused (o.start + 1) cursor' ∨
          ∃ bodyStop, refused = false ∧
            f.bodyEnd r o (min (f.text.lineEnd o.stop + 1) f.hi) = .ok bodyStop ∧
            m = .go (.accepted (⟨o.start, o.stop, .heredocTag⟩,
              ⟨min (f.text.lineEnd o.stop + 1) f.hi, bodyStop, .heredoc⟩))
                (max bodyStop o.stop) cursor') := by
  unfold heredocStep at h
  rw [hspans.scope_eq, hspans.lo_eq] at h
  cases hnext : r.nextOpener f.text pos with
  | none =>
    rw [hnext] at h
    cases h
    exact .inl ⟨rfl, rfl⟩
  | some o =>
    rw [hnext] at h
    simp only [Nat.zero_add] at h
    obtain ⟨⟨refused, cursor'⟩, hrefuses, h⟩ := bind_eq_ok.mp h
    refine .inr ⟨o, refused, cursor', rfl, hrefuses, ?_⟩
    cases refused with
    | true =>
      cases h
      exact .inl ⟨rfl, rfl⟩
    | false =>
      obtain ⟨bodyStop, hbody, h⟩ := bind_eq_ok.mp h
      obtain ⟨next, hnext, h⟩ := bind_eq_ok.mp h
      have hnext : max bodyStop o.stop = next := minus_eq_ok_iff.mp hnext
      cases h
      exact .inr ⟨bodyStop, rfl, hbody, by rw [hnext]⟩

/-- Without a scanner for block comments there is none afterwards. -/
lemma eq_none_of_refusesHeredoc {refused : Bool} {cursor : Option CommentCursor}
    (h : f.refusesHeredoc pos none = .ok (refused, cursor)) : cursor = none := by
  unfold refusesHeredoc at h
  obtain ⟨behind, -, h⟩ := bind_eq_ok.mp h
  split at h
  · cases h
    rfl
  · obtain ⟨accepted, -, h⟩ := bind_eq_ok.mp h
    cases h
    rfl

/-- Heredocs of a sweep that finds no opener before an offset lie beyond it.

**Proof sketch.** Each heredoc that the sweep finds comes from an opener, and none lies between the
offset where the sweep starts and the one in question. -/
lemma heredocs_beyond (hf : f.WellFormed) (hspans : f.Spans) (hr : r.opener.IsPlain)
    (hpos : pos ≤ f.text.size) (hnone : ∀ j, pos ≤ j → j < n → r.openerAt f.text j = none)
    {harvest : Sweep.Harvest (Interval × Interval)}
    (h : Sweep.collect (f.heredocStep r) f.text.size pos none = .ok harvest) :
    HeredocsBeyond n harvest.items.toList := by
  have hsize : f.scope.size = f.text.size := by rw [hspans.scope_eq]
  have hle : pos ≤ f.scope.size := hsize ▸ hpos
  obtain ⟨htiles, hparts⟩ := (Sweep.collect_tiles f.lo
    (fun pos cursor _ _ _ => heredocStep_ensures hf hr cursor) hle trivial).elim (hsize ▸ h)
  intro x hx
  obtain ⟨o, hat, htag⟩ := (hparts x (by simpa using hx)).opener
  have hmem (iv : Interval) (hiv : iv ∈ heredocIntervals x) :=
    htiles.1 iv (List.mem_flatMap.mpr ⟨x, hx, hiv⟩)
  have hin := hmem x.1 (by simp [heredocIntervals])
  have hpair : x.1.stop ≤ x.2.start := by
    have := htiles.sublist (List.sublist_flatten_of_mem (List.mem_map_of_mem (f := heredocIntervals) hx))
    have := List.pairwise_cons.mp this.2
    exact this.1 x.2 (by simp)
  obtain ⟨-, hlt, -⟩ := r.openerAt_bounds hat
  rw [hspans.lo_eq, Nat.zero_add, Nat.zero_add] at htag
  rw [htag, hspans.lo_eq] at hin
  dsimp only at hin
  have hge : n ≤ o.start := by
    refine Nat.le_of_not_lt fun hlt' => ?_
    have := hnone o.start (by omega) hlt'
    rw [← hspans.scope_eq, hat] at this
    cases this
  rw [htag] at hpair ⊢
  dsimp only at hpair ⊢
  omega

/-- Whether an opener counts is decided on its line.

**Proof sketch.** The tests for comments and for quotes read the line of the opener only, and
documents that share lines have it in common. -/
lemma refusesHeredoc_shares (h : f.text.Shares f₀.text n) (hspans : f.Spans) (hspans₀ : f₀.Spans)
    (hd : f.dialect = f₀.dialect) (ho : f.dialect.OpensOnLine r) (hpos : pos < n) :
    f.refusesHeredoc pos none = f₀.refusesHeredoc pos none := by
  have hbehind : f.behindLineComment pos = f₀.behindLineComment pos := by
    unfold behindLineComment Dialect.behindLineMark minus
    rw [hspans.lo_eq, hspans₀.lo_eq, if_pos (Nat.zero_le _),
      hspans.scope_eq, hspans₀.scope_eq, ← hd]
    exact congrArg (fun x : Option Nat => Except.ok x.isSome)
      (h.behindMarkOnLine_eq hpos ho.marks f.dialect.lineFilter)
  have haccepts : f.accepts pos .heredoc = f₀.accepts pos .heredoc := by
    unfold accepts Dialect.accepts minus
    rw [hspans.lo_eq, hspans₀.lo_eq, if_pos (Nat.zero_le _),
      hspans.scope_eq, hspans₀.scope_eq, ← hd, ho.test]
    exact congrArg (fun x : Bool => Except.ok (!x)) (h.inQuotesOnLine_eq hpos)
  unfold refusesHeredoc
  rw [hbehind, haccepts]

/-- The body of a heredoc ends in the shared lines of both documents at the same place, or in
neither.

**Proof sketch.** Induction on the shared lines from the given one on: each of them closes the heredoc
in both documents or in neither. -/
lemma bodyEnd_shares (h : f.text.Shares f₀.text n) (hf : f.WellFormed) (hf₀ : f₀.WellFormed)
    (hspans : f.Spans) (hspans₀ : f₀.Spans) {o : HeredocOpener} {line stop stop₀ : Nat}
    (hline : line ≤ n) (hb : f.text.isBoundary line = true) (hstop : f.bodyEnd r o line = .ok stop)
    (hstop₀ : f₀.bodyEnd r o line = .ok stop₀) :
    stop = stop₀ ∧ stop < n ∨ n ≤ stop ∧ n ≤ stop₀ := by
  have h1 : n ≤ f.text.size := by simpa using h.twin.le_size
  have h2 : n ≤ f₀.text.size := by simpa using h.twin.le_size₀
  have hhi := hspans.hi_eq
  have hhi₀ := hspans₀.hi_eq
  induction hm : n - line using Nat.strongRecOn generalizing line with
  | _ m ih =>
    rcases Nat.lt_or_eq_of_le hline with hlt | rfl
    · rw [bodyEnd, if_pos (by omega)] at hstop hstop₀
      obtain ⟨hend, hendlt⟩ := h.lineEnd_eq hlt
      have hle : line ≤ f.text.lineEnd line := Text.le_lineEnd (by omega)
      rw [← hend, Nat.min_eq_left (by omega)] at hstop₀
      rw [Nat.min_eq_left (by omega)] at hstop
      dsimp only at hstop hstop₀
      -- the line is shared, so it closes both bodies or none
      rw [← h.slice_eq hle (Nat.le_of_lt hendlt)] at hstop₀
      obtain ⟨part, hpart, hstop⟩ := bind_eq_ok.mp hstop
      obtain ⟨part₀, hpart₀, hstop₀⟩ := bind_eq_ok.mp hstop₀
      obtain rfl := Except.ok.inj (hpart.symm.trans hpart₀)
      cases hclose : r.terminatorEnd part o.tag o.indented with
      | some offset =>
        rw [hclose] at hstop hstop₀
        cases hstop
        cases hstop₀
        have hoffset := r.terminatorEnd_le hclose
        obtain ⟨-, -, hpart⟩ := bind_eq_ok.mp hpart
        cases hpart
        have : (f.text.between line (f.text.lineEnd line)).size = f.text.lineEnd line - line :=
          Text.size_between f.text line (by omega)
        exact .inl ⟨rfl, by omega⟩
      | none =>
        rw [hclose] at hstop hstop₀
        dsimp only at hstop hstop₀
        have hnewline : f.text.byteAt (f.text.lineEnd line) = some newline :=
          (Text.endsLine_lineEnd f.text line).resolve_left (by omega)
        rw [Nat.max_eq_left (by omega)] at hstop hstop₀
        exact ih _ (by omega) hendlt
          (Text.isBoundary_succ_of_ascii hf.valid hnewline (by decide)) hstop hstop₀ rfl
    · -- the shared lines are used up, and the body ends behind them in both documents
      have hb₀ : f₀.text.isBoundary line = true := by rwa [← h.isBoundary_eq (Nat.le_refl _)]
      have h3 := (bodyEnd_ensures hf r o (.inl hb)).elim hstop
      have h4 := (bodyEnd_ensures hf₀ r o (.inl hb₀)).elim hstop₀
      exact .inr (by omega)

/-- **Heredocs of shared lines.** Documents that begin with the same lines have the same heredocs
there.

**Proof sketch.** Induction on the shared lines that are left. The next opener is the same in both
documents, unless none is left. Either both accept it or none does, and then its body starts at the
same place. If the body ends in the shared lines, both sweeps go on from the same place, and otherwise
all further heredocs lie beyond. -/
theorem heredocs_agree (h : f.text.Shares f₀.text n) (hf : f.WellFormed) (hf₀ : f₀.WellFormed)
    (hspans : f.Spans) (hspans₀ : f₀.Spans) (hd : f.dialect = f₀.dialect)
    (ho : f.dialect.OpensOnLine r) (hpos : pos ≤ f.text.size) (hpos₀ : pos ≤ f₀.text.size)
    {harvest harvest₀ : Sweep.Harvest (Interval × Interval)}
    (hrun : Sweep.collect (f.heredocStep r) f.text.size pos none = .ok harvest)
    (hrun₀ : Sweep.collect (f₀.heredocStep r) f₀.text.size pos none = .ok harvest₀) :
    HeredocsAgree n harvest.items.toList harvest₀.items.toList := by
  have h1 : n ≤ f.text.size := by simpa using h.twin.le_size
  have h2 : n ≤ f₀.text.size := by simpa using h.twin.le_size₀
  induction hm : n - pos using Nat.strongRecOn generalizing pos harvest harvest₀ with
  | _ m ih =>
    rcases h.nextOpener_cases ho.opener ho.flag pos with ⟨o, hostart, hostop, hnext, hnext₀⟩ | hnone
    · -- both documents have the next opener, so neither sweep stops
      obtain ⟨hge, hlt, -⟩ := r.nextOpener_bounds hnext
      have hnone (u : Text) (j : Nat) (hj : n ≤ j) (hjn : j < n) : r.openerAt u j = none := by omega
      rcases Sweep.collect_cases hrun with ⟨hstep, -⟩ | ⟨verdict, next, s', hstep, hnext_le, hrest⟩
      · rcases heredocStep_cases hspans hstep with ⟨hno, -⟩ | ⟨_, refused, _, -, -, hmove⟩
        · rw [hnext] at hno
          cases hno
        · rcases hmove with ⟨-, hmove⟩ | ⟨_, -, -, hmove⟩ <;> cases hmove
      rcases Sweep.collect_cases hrun₀ with
        ⟨hstep₀, -⟩ | ⟨verdict₀, next₀, s₀', hstep₀, hnext_le₀, hrest₀⟩
      · rcases heredocStep_cases hspans₀ hstep₀ with ⟨hno, -⟩ | ⟨_, refused, _, -, -, hmove⟩
        · rw [hnext₀] at hno
          cases hno
        · rcases hmove with ⟨-, hmove⟩ | ⟨_, -, -, hmove⟩ <;> cases hmove
      rcases heredocStep_cases hspans hstep with ⟨-, hmove⟩ | ⟨o', refused, c, hat, hrefuses, hmove⟩
      · cases hmove
      rcases heredocStep_cases hspans₀ hstep₀ with
        ⟨-, hmove₀⟩ | ⟨o₀', refused₀, c₀, hat₀, hrefuses₀, hmove₀⟩
      · cases hmove₀
      obtain rfl := Option.some.inj (hnext.symm.trans hat)
      obtain rfl := Option.some.inj (hnext₀.symm.trans hat₀)
      obtain rfl := eq_none_of_refusesHeredoc hrefuses
      obtain rfl := eq_none_of_refusesHeredoc hrefuses₀
      -- both accept it, or both refuse it
      rw [refusesHeredoc_shares h hspans hspans₀ hd ho hostart, hrefuses₀] at hrefuses
      obtain rfl : refused₀ = refused := by simpa using Except.ok.inj hrefuses
      rcases hmove with ⟨hrefused, hmove⟩ | ⟨bodyStop, hrefused, hbody, hmove⟩ <;>
        rcases hmove₀ with ⟨hrefused₀, hmove₀⟩ | ⟨bodyStop₀, hrefused₀, hbody₀, hmove₀⟩
      · cases hmove
        cases hmove₀
        obtain ⟨rest, hcollect, hitems⟩ := hrest (by omega)
        obtain ⟨rest₀, hcollect₀, hitems₀⟩ := hrest₀ (by omega)
        rw [hitems, hitems₀]
        exact ih _ (by omega) (by omega) (by omega) hcollect hcollect₀ rfl
      · rw [hrefused] at hrefused₀
        cases hrefused₀
      · rw [hrefused] at hrefused₀
        cases hrefused₀
      · cases hmove
        cases hmove₀
        obtain ⟨rest, hcollect, hitems⟩ := hrest (by omega)
        obtain ⟨rest₀, hcollect₀, hitems₀⟩ := hrest₀ (by omega)
        rw [hitems, hitems₀]
        -- the body starts behind the line of the opener, which both share
        obtain ⟨hend, hendlt⟩ := h.lineEnd_eq hostop
        have hhi := hspans.hi_eq
        have hhi₀ := hspans₀.hi_eq
        rw [← hend, Nat.min_eq_left (by omega)] at hbody₀ ⊢
        rw [Nat.min_eq_left (by omega)] at hbody ⊢
        have hnewline : f.text.byteAt (f.text.lineEnd o.stop) = some newline :=
          (Text.endsLine_lineEnd f.text o.stop).resolve_left (by omega)
        have hboundary := Text.isBoundary_succ_of_ascii hf.valid hnewline (by decide)
        rcases bodyEnd_shares h hf hf₀ hspans hspans₀ (by omega) hboundary hbody hbody₀ with
          ⟨rfl, hstop⟩ | ⟨hstop, hstop₀⟩
        · exact .cons _ (ih _ (by omega) (by omega) (by omega) hcollect hcollect₀ rfl)
        · exact .last rfl
            (heredocs_beyond hf hspans ho.opener hnext_le (fun j hj hjn => by omega) hcollect)
            (heredocs_beyond hf₀ hspans₀ ho.opener hnext_le₀ (fun j hj hjn => by omega) hcollect₀)
    · exact .beyond (heredocs_beyond hf hspans ho.opener hpos (fun j hj hjn => (hnone j hj hjn).1) hrun)
        (heredocs_beyond hf₀ hspans₀ ho.opener hpos₀ (fun j hj hjn => (hnone j hj hjn).2) hrun₀)

end Frame

namespace Frame.HeredocsSwept

variable {f f₀ : Frame} {r : HeredocRules} {l l₀ : Layout}

/-- The sweep of a dialect that decides on the line of an opener needs no scanner for comments.

**Proof sketch.** Such a dialect has no block comments. -/
lemma exists_harvest (h : f.HeredocsSwept l) (hspans : f.Spans) (ho : f.dialect.OpensOnLine r) :
    ∃ harvest, Sweep.collect (f.heredocStep r) f.text.size 0 none = .ok harvest ∧
      l.composite.heredocs.intervals.toList =
        harvest.items.toList.flatMap Frame.heredocEntries := by
  obtain ⟨rules, harvest, hrules, hrun, hitems⟩ := h
  obtain rfl := Option.some.inj (hrules.symm.trans ho.heredocs)
  have hcursor : f.cursor = none := by
    unfold Frame.cursor
    rw [ho.comments]
    rfl
  rw [hcursor, hspans.scope_eq] at hrun
  exact ⟨harvest, hrun, hitems⟩

/-- What a sweep maps is a tag, which keeps to its line, or a body, which starts a line.

**Proof sketch.** An entry belongs to an opener that the sweep has found. The tag stays on the line
of the opener, and the body starts on the line behind it. -/
lemma cases_of_mem (h : f.HeredocsSwept l) (hf : f.WellFormed) (hspans : f.Spans)
    (ho : f.dialect.OpensOnLine r) {iv : Interval} (hiv : iv ∈ l.composite.heredocs.intervals) :
    iv.kind = .heredocTag ∧
        (∀ j, f.text.byteAt j = some newline → iv.start ≤ j → iv.stop ≤ j) ∨
      iv.kind = .heredoc ∧ 0 < iv.start ∧ f.text.StartsLine iv.start := by
  obtain ⟨rules, harvest, hrules, hrun, hitems⟩ := h
  obtain rfl := Option.some.inj (hrules.symm.trans ho.heredocs)
  obtain ⟨htiles, hparts⟩ := (heredocs_ensures hf ho.opener).elim hrun
  rw [← Array.mem_toList_iff, hitems] at hiv
  obtain ⟨x, hx, hiv⟩ := List.mem_flatMap.mp hiv
  have hpart := hparts x (by simpa using hx)
  obtain ⟨o, hat, htag⟩ := hpart.opener
  rw [hspans.scope_eq] at hat
  rw [hspans.lo_eq, Nat.zero_add, Nat.zero_add] at htag
  have hbody := htiles.1 x.2 (List.mem_flatMap.mpr ⟨x, hx, by simp [heredocIntervals]⟩)
  have htagIn := htiles.1 x.1 (List.mem_flatMap.mpr ⟨x, hx, by simp [heredocIntervals]⟩)
  unfold heredocEntries at hiv
  -- an empty body is no entry
  have hcases : iv = x.1 ∨ iv = x.2 ∧ x.2.start < x.2.stop := by
    split at hiv
    · exact .inl (List.mem_singleton.mp hiv)
    · rename_i hempty
      refine (List.mem_pair.mp hiv).imp_right fun h => ⟨h, ?_⟩
      simpa [Interval.isEmpty] using hempty
  rcases hcases with rfl | ⟨rfl, hlt⟩
  · rw [htag]
    refine .inl ⟨rfl, fun j hline hj => ?_⟩
    have hshares := Text.shares_self hf.valid hline
    exact Nat.le_of_lt_succ ((hshares.openerAt_eq (Nat.lt_succ_of_le hj) ho.opener ho.flag).2 o hat)
  · have hstart := hpart.bodyStart
    have hhi := hspans.hi_eq
    have hline := (Text.endsLine_lineEnd f.text x.1.stop).resolve_left (by omega)
    have hfollows : x.2.start = f.text.lineEnd x.1.stop + 1 := by omega
    refine .inr ⟨hpart.bodyKind, by omega, .inr ⟨by omega, ?_⟩⟩
    rw [hfollows]
    exact hline

/-- The first part of every heredoc is a tag. -/
lemma tags_of_harvest (hf : f.WellFormed) (hspans : f.Spans) (ho : f.dialect.OpensOnLine r)
    {harvest : Sweep.Harvest (Interval × Interval)}
    (hrun : Sweep.collect (f.heredocStep r) f.text.size 0 none = .ok harvest) :
    ∀ x ∈ harvest.items.toList, x.1.kind = .heredocTag := by
  have hsize : f.scope.size = f.text.size := by rw [hspans.scope_eq]
  obtain ⟨-, hparts⟩ := (Sweep.collect_tiles f.lo
    (fun pos cursor _ _ _ => heredocStep_ensures hf ho.opener cursor)
    (Nat.zero_le f.scope.size) trivial).elim (hsize ▸ hrun)
  intro x hx
  obtain ⟨o, -, htag⟩ := (hparts x (by simpa using hx)).opener
  rw [htag]

/-- Bodies at the same place in the sets of two documents start together, if the documents share the
lines before one of them.

**Proof sketch.** The sweeps find heredocs that agree up to the shared lines. -/
lemma start_eq (h : f.HeredocsSwept l) (h₀ : f₀.HeredocsSwept l₀) (hf : f.WellFormed)
    (hf₀ : f₀.WellFormed) (hspans : f.Spans) (hspans₀ : f₀.Spans) (hd : f.dialect = f₀.dialect)
    (ho : f.dialect.OpensOnLine r) {i : Nat} {iv iv₀ : Interval}
    (hget : l.composite.heredocs.intervals.toList[i]? = some iv)
    (hget₀ : l₀.composite.heredocs.intervals.toList[i]? = some iv₀) (hkind : iv.kind = .heredoc)
    (hkind₀ : iv₀.kind = .heredoc) (hshares : f.text.Shares f₀.text (min iv.start iv₀.start)) :
    iv.start = iv₀.start := by
  have ho₀ := hd ▸ ho
  obtain ⟨harvest, hrun, hitems⟩ := h.exists_harvest hspans ho
  obtain ⟨harvest₀, hrun₀, hitems₀⟩ := h₀.exists_harvest hspans₀ ho₀
  rw [hitems] at hget
  rw [hitems₀] at hget₀
  have hagree := heredocs_agree hshares hf hf₀ hspans hspans₀ hd ho (Nat.zero_le _) (Nat.zero_le _)
    hrun hrun₀
  exact hagree.start_eq (tags_of_harvest hf hspans ho hrun) (tags_of_harvest hf₀ hspans₀ ho₀ hrun₀)
    hget hget₀ hkind hkind₀ (Nat.le_refl _)

end Frame.HeredocsSwept

/-! ### Heredocs that count -/

namespace Layout

variable {l l₀ : Layout} {lo hi lo₀ hi₀ pos pos₀ : Nat}

/-- An offset lies in a heredoc that counts if one of the heredocs there starts outside quote
operators.

**Proof sketch.** The intervals of a settled set do not overlap, so an offset lies in one heredoc at
most, and the answer for an offset depends on the start of this one. -/
lemma Settled.isSome_heredocAt_iff (h : l.Settled lo hi) :
    (l.composite.heredocAt pos).isSome = true ↔ ∃ iv ∈ l.composite.heredocs.intervals,
      iv.start ≤ pos ∧ pos < iv.stop ∧ l.coversSort .quoteOperators iv.start = false := by
  unfold CompositeSet.heredocAt IntervalSet.inString
  constructor
  · intro hsome
    cases hat : l.composite.heredocs.intervalAt pos with
    | none =>
      rw [hat] at hsome
      cases hsome
    | some iv =>
      obtain ⟨hmem, hpos⟩ := IntervalSet.mem_of_intervalAt hat
      refine ⟨iv, hmem, hpos.1, hpos.2, ?_⟩
      rw [hat, Option.map_some, Option.isSome_filter, Option.any_some] at hsome
      rw [← h.isSome_operators, ← Option.not_isNone]
      unfold IntervalSet.inString
      rw [hsome]
      rfl
  · rintro ⟨iv, hmem, h1, h2, hoperators⟩
    have hfound : l.composite.heredocs.intervalAt pos = some iv :=
      h.heredocs.intervalAt_eq_some_iff.mpr ⟨hmem, Interval.contains_iff.mpr ⟨h1, h2⟩⟩
    rw [hfound, Option.map_some, Option.isSome_filter, Option.any_some]
    rw [← h.isSome_operators, ← Option.not_isNone] at hoperators
    unfold IntervalSet.inString at hoperators
    simpa using hoperators

/-- Quote operators that start outside heredocs all count.

**Proof sketch.** The answer for a quote operator is withdrawn if the operator starts in a heredoc,
which none does. -/
lemma Settled.isSome_inEither_iff (h : l.Settled lo hi)
    (houtside : ∀ iv ∈ l.composite.operators.intervals,
      (l.composite.heredocs.inString iv.start).isNone = true) :
    (l.composite.inEither pos).isSome = true ↔
      (l.composite.heredocAt pos).isSome = true ∨ l.coversSort .quoteOperators pos = true := by
  rw [← h.isSome_operators]
  unfold CompositeSet.inEither
  cases hat : l.composite.heredocAt pos with
  | some start => simp
  | none =>
    simp only [Option.isSome_none, Bool.false_eq_true, false_or]
    cases hoperator : l.composite.operators.inString pos with
    | none => simp
    | some start =>
      obtain ⟨iv, hiv, rfl⟩ := Option.map_eq_some_iff.mp hoperator
      have hnone := houtside iv (IntervalSet.mem_of_intervalAt hiv).1
      have hstart : l.composite.heredocAt iv.start = none := by
        unfold CompositeSet.heredocAt
        rw [Option.isNone_iff_eq_none.mp hnone]
        rfl
      simp [hstart]

/-- If an offset lies in a heredoc or a quote operator, so does another one for which there are the
same quote operators and a heredoc that starts in the same way. -/
lemma isSome_inEither_of (hl : l.Settled lo hi) (hl₀ : l₀.Settled lo₀ hi₀)
    (houtside : ∀ iv ∈ l.composite.operators.intervals,
      (l.composite.heredocs.inString iv.start).isNone = true)
    (houtside₀ : ∀ iv ∈ l₀.composite.operators.intervals,
      (l₀.composite.heredocs.inString iv.start).isNone = true)
    (hcovers : l.coversSort .quoteOperators pos = l₀.coversSort .quoteOperators pos₀)
    (hheredocs : ∀ iv ∈ l.composite.heredocs.intervals, iv.start ≤ pos → pos < iv.stop →
      ∃ iv₀ ∈ l₀.composite.heredocs.intervals, iv₀.start ≤ pos₀ ∧ pos₀ < iv₀.stop ∧
        l.coversSort .quoteOperators iv.start = l₀.coversSort .quoteOperators iv₀.start)
    (h : (l.composite.inEither pos).isSome = true) :
    (l₀.composite.inEither pos₀).isSome = true := by
  rw [hl₀.isSome_inEither_iff houtside₀, ← hcovers, hl₀.isSome_heredocAt_iff]
  rw [hl.isSome_inEither_iff houtside, hl.isSome_heredocAt_iff] at h
  refine h.imp_left ?_
  rintro ⟨iv, hmem, h1, h2, hoperators⟩
  obtain ⟨iv₀, hmem₀, h3, h4, hsame⟩ := hheredocs iv hmem h1 h2
  exact ⟨iv₀, hmem₀, h3, h4, hsame ▸ hoperators⟩

end Layout

/-! ### Edits -/

namespace EditWindow

variable {w : EditWindow} {l l₀ : Layout} {lo hi lo₀ hi₀ : Nat}

/-- Before the edited section the same offsets lie in heredocs and quote operators before and after
the edit.

**Proof sketch.** A heredoc that holds the offset starts before the section, so the set of the other
layout has one with the same start and the same end, or both end behind the offset. The operators
there are the same as well. -/
theorem inEither_before (hl : l.Settled lo hi) (hl₀ : l₀.Settled lo₀ hi₀)
    (houtside : ∀ iv ∈ l.composite.operators.intervals,
      (l.composite.heredocs.inString iv.start).isNone = true)
    (houtside₀ : ∀ iv ∈ l₀.composite.operators.intervals,
      (l₀.composite.heredocs.inString iv.start).isNone = true)
    (hkeeps : w.Keeps l.composite.heredocs.intervals.toList l₀.composite.heredocs.intervals.toList)
    (htwin : l.Twin l₀ 0 0 w.start) {i : Nat} (hi : i < w.start) :
    (l.composite.inEither i).isSome = (l₀.composite.inEither i).isSome := by
  have hcovers (j : Nat) (hj : j < w.start) :
      l.coversSort .quoteOperators j = l₀.coversSort .quoteOperators j := by
    have := htwin (fun kind => kind.sort == .quoteOperators) j hj
    rwa [Nat.zero_add] at this
  rw [Bool.eq_iff_iff]
  constructor
  · refine Layout.isSome_inEither_of hl hl₀ houtside houtside₀ (hcovers i hi) fun iv hiv h1 h2 => ?_
    obtain ⟨iv₀, hiv₀, -, hstart, hstop⟩ :=
      hkeeps.exists_before (by simpa using hiv) hi ⟨h1, h2⟩
    exact ⟨iv₀, by simpa using hiv₀, by omega, hstop, by rw [hstart, hcovers _ (by omega)]⟩
  · refine Layout.isSome_inEither_of hl₀ hl houtside₀ houtside (hcovers i hi).symm
      fun iv₀ hiv₀ h1 h2 => ?_
    obtain ⟨iv, hiv, -, hstart, hstop⟩ :=
      hkeeps.flip.exists_before (by simpa using hiv₀) hi ⟨h1, h2⟩
    exact ⟨iv, by simpa using hiv, by omega, hstop, by rw [hstart, hcovers _ (by omega)]⟩

namespace Around

variable {f f₀ : Frame} {r : HeredocRules} {pos added removed : Nat}

/-- A heredoc that reaches beyond the section and has moved with what is behind it starts behind the
section, unless the edit put in as much as it took away.

**Proof sketch.** Otherwise it is a body, because tags keep to their lines and a line ends with the
section. As it has moved, its start has moved too, and the document before the edit shares the lines
before the earlier of the two starts. So it starts at the same place before and after the edit. -/
lemma le_start_of_heredoc (h : w.Around f.text f₀.text pos added removed) (hne : added ≠ removed)
    (hf : f.WellFormed) (hf₀ : f₀.WellFormed) (hspans : f.Spans) (hspans₀ : f₀.Spans)
    (hd : f.dialect = f₀.dialect) (ho : f.dialect.OpensOnLine r) (hswept : f.HeredocsSwept l)
    (hswept₀ : f₀.HeredocsSwept l₀) (hl : l.Settled f.lo f.hi) {i : Nat} {iv iv₀ : Interval}
    (hget : l.composite.heredocs.intervals.toList[i]? = some iv)
    (hget₀ : l₀.composite.heredocs.intervals.toList[i]? = some iv₀) (hkind : iv₀.kind = iv.kind)
    (halign : iv.start + w.oldStop = iv₀.start + w.stop) (hreach : w.stop < iv.stop) :
    w.stop ≤ iv.start := by
  refine Nat.le_of_not_lt fun hlt => ?_
  have hiv := List.mem_of_getElem? hget
  have hiv₀ := List.mem_of_getElem? hget₀
  have hstop := (hl.heredocs.1 iv hiv).2.2
  have hhi := hspans.hi_eq
  have hends := Text.endsLine_lineEnd f.text (pos + added)
  rw [← h.stop_eq] at hends
  have hline : f.text.byteAt w.stop = some newline := hends.resolve_left (by omega)
  rcases hswept.cases_of_mem hf hspans ho (by simpa using hiv) with ⟨-, htag⟩ | ⟨hbody, hpos, hstarts⟩
  · have := htag _ hline (Nat.le_of_lt hlt)
    omega
  · rcases hswept₀.cases_of_mem hf₀ hspans₀ (hd ▸ ho) (by simpa using hiv₀) with
      ⟨htag₀, -⟩ | ⟨hbody₀, hpos₀, hstarts₀⟩
    · rw [htag₀, hbody] at hkind
      cases hkind
    · have hshares := h.shares hstarts hstarts₀ (Nat.le_of_lt hlt) halign (by omega)
      have := hswept.start_eq hswept₀ hf hf₀ hspans hspans₀ hd ho hget hget₀ hbody hbody₀ hshares
      have := h.oldStop_eq
      omega

/-- If no length of a heredoc has changed, then the heredocs that reach beyond the section start
behind it and move with what is there.

**Proof sketch.** The comparison of what is behind the section says that the heredocs that reach
beyond it end alike and that what is left of them is moved. None of them starts in the section or
before it, so all of each is left. -/
theorem heredocs_move (h : w.Around f.text f₀.text pos added removed) (hne : added ≠ removed)
    (hf : f.WellFormed) (hf₀ : f₀.WellFormed) (hspans : f.Spans) (hspans₀ : f₀.Spans)
    (hd : f.dialect = f₀.dialect) (ho : f.dialect.OpensOnLine r)
    (hswept : l.composite.heredocs.intervals = #[] ∨ f.HeredocsSwept l)
    (hswept₀ : l₀.composite.heredocs.intervals = #[] ∨ f₀.HeredocsSwept l₀)
    (hl : l.Settled f.lo f.hi) (hl₀ : l₀.Settled f₀.lo f₀.hi)
    (hlengths : l.composite.heredocs.intervals.toList.map (fun iv => iv.stop - iv.start) =
      l₀.composite.heredocs.intervals.toList.map fun iv => iv.stop - iv.start)
    (hkeeps : w.Keeps l.composite.heredocs.intervals.toList
      l₀.composite.heredocs.intervals.toList) :
    List.Forall₂ (fun iv iv₀ => (w.stop < iv.stop ↔ w.oldStop < iv₀.stop) ∧ (w.stop < iv.stop →
      w.stop ≤ iv.start ∧ iv.start + w.oldStop = iv₀.start + w.stop ∧
        iv.stop + w.oldStop = iv₀.stop + w.stop))
      l.composite.heredocs.intervals.toList l₀.composite.heredocs.intervals.toList := by
  have hsame := congrArg List.length hlengths
  rw [List.length_map, List.length_map] at hsame
  have hmoves := forall₂_of_piecesAfter (hl.heredocs.nested.imp And.right)
    (hl₀.heredocs.nested.imp And.right) (fun iv hiv => (hl.heredocs.1 iv hiv).2.1)
    (fun iv hiv => (hl₀.heredocs.1 iv hiv).2.1) hlengths hkeeps.after
  rw [List.forall₂_iff_get] at hmoves ⊢
  refine ⟨hmoves.1, fun i hi hi₀ => ?_⟩
  obtain ⟨hiff, hmove⟩ := hmoves.2 i hi hi₀
  refine ⟨hiff, fun hreach => ?_⟩
  obtain ⟨hkind, hstart, hstop⟩ := hmove hreach
  -- there is an entry, so the set comes from a sweep
  have hswept : f.HeredocsSwept l := hswept.resolve_left fun hnone => by
    rw [hnone] at hi
    exact absurd hi (Nat.not_lt_zero i)
  have hswept₀ : f₀.HeredocsSwept l₀ := hswept₀.resolve_left fun hnone => by
    rw [hnone] at hi₀
    exact absurd hi₀ (Nat.not_lt_zero i)
  exact ⟨h.le_start_of_heredoc hne hf hf₀ hspans hspans₀ hd ho hswept hswept₀ hl
    (List.getElem?_eq_getElem hi) (List.getElem?_eq_getElem hi₀) hkind hstart hreach, hstart, hstop⟩

/-- Behind the edited section the same offsets lie in heredocs and quote operators before and after
the edit, if no length of a heredoc has changed.

**Proof sketch.** Heredocs that hold the offset start behind the section and move with it, and so do
the operators that cover their starts. So the offset lies in a heredoc that counts on both sides, or
on neither. -/
theorem inEither_after (h : w.Around f.text f₀.text pos added removed) (hne : added ≠ removed)
    (hf : f.WellFormed) (hf₀ : f₀.WellFormed) (hspans : f.Spans) (hspans₀ : f₀.Spans)
    (hd : f.dialect = f₀.dialect) (ho : f.dialect.OpensOnLine r)
    (hswept : l.composite.heredocs.intervals = #[] ∨ f.HeredocsSwept l)
    (hswept₀ : l₀.composite.heredocs.intervals = #[] ∨ f₀.HeredocsSwept l₀)
    (hl : l.Settled f.lo f.hi) (hl₀ : l₀.Settled f₀.lo f₀.hi)
    (houtside : ∀ iv ∈ l.composite.operators.intervals,
      (l.composite.heredocs.inString iv.start).isNone = true)
    (houtside₀ : ∀ iv ∈ l₀.composite.operators.intervals,
      (l₀.composite.heredocs.inString iv.start).isNone = true)
    (hlengths : l.composite.heredocs.intervals.toList.map (fun iv => iv.stop - iv.start) =
      l₀.composite.heredocs.intervals.toList.map fun iv => iv.stop - iv.start)
    (hkeeps : w.Keeps l.composite.heredocs.intervals.toList
      l₀.composite.heredocs.intervals.toList)
    {n k : Nat} (htwin : l.Twin l₀ w.stop w.oldStop n) (hk : k < n) :
    (l.composite.inEither (w.stop + k)).isSome =
      (l₀.composite.inEither (w.oldStop + k)).isSome := by
  have hmoves := h.heredocs_move hne hf hf₀ hspans hspans₀ hd ho hswept hswept₀ hl hl₀ hlengths hkeeps
  rw [List.forall₂_iff_get] at hmoves
  have hcovers (j : Nat) (hj : j < n) : l.coversSort .quoteOperators (w.stop + j) =
      l₀.coversSort .quoteOperators (w.oldStop + j) := htwin _ j hj
  -- an operator that covers the start of a heredoc behind the section moves with it
  have hstarts {iv iv₀ : Interval} (hle : w.stop ≤ iv.start) (hlt : iv.start < w.stop + n)
      (halign : iv.start + w.oldStop = iv₀.start + w.stop) :
      l.coversSort .quoteOperators iv.start = l₀.coversSort .quoteOperators iv₀.start := by
    have := hcovers (iv.start - w.stop) (by omega)
    rwa [Nat.add_sub_cancel' hle, show w.oldStop + (iv.start - w.stop) = iv₀.start by omega] at this
  rw [Bool.eq_iff_iff]
  constructor
  · -- the heredoc around the offset has a place in the list, which its twin has in the other
    refine Layout.isSome_inEither_of hl hl₀ houtside houtside₀ (hcovers k hk) fun iv hiv h1 h2 => ?_
    obtain ⟨⟨i, hi⟩, rfl⟩ := List.mem_iff_get.mp (Array.mem_toList_iff.mpr hiv)
    have hi₀ := Nat.lt_of_lt_of_eq hi hmoves.1
    obtain ⟨-, hmove⟩ := hmoves.2 i hi hi₀
    obtain ⟨hle, hstart, hstop⟩ := hmove (by omega)
    exact ⟨_, Array.mem_toList_iff.mp (List.get_mem _ ⟨i, hi₀⟩), by omega, by omega,
      hstarts hle (by omega) hstart⟩
  · refine Layout.isSome_inEither_of hl₀ hl houtside₀ houtside (hcovers k hk).symm
      fun iv₀ hiv₀ h1 h2 => ?_
    obtain ⟨⟨i, hi₀⟩, rfl⟩ := List.mem_iff_get.mp (Array.mem_toList_iff.mpr hiv₀)
    have hi := Nat.lt_of_lt_of_eq hi₀ hmoves.1.symm
    obtain ⟨hiff, hmove⟩ := hmoves.2 i hi hi₀
    obtain ⟨hle, hstart, hstop⟩ := hmove (hiff.mpr (by omega))
    exact ⟨_, Array.mem_toList_iff.mp (List.get_mem _ ⟨i, hi⟩), by omega, by omega,
      (hstarts hle (by omega) hstart).symm⟩

end Around

end EditWindow

end LexPaint
