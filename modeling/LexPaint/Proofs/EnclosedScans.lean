import LexPaint.Pass.Run
import LexPaint.Proofs.EnclosedScanners
import LexPaint.Proofs.FrameSafety
import LexPaint.Proofs.LiteralScans
import LexPaint.Proofs.ShiftedSets

set_option relaxedAutoImplicit false
set_option autoImplicit false

/-!
# Scans of scopes inside documents

The scans for literals over an embedded section take the steps that they take over the text of the
section as a document of its own, up to the offset of the section.

## Main definitions

* `Frame.Encloses`: a scope with the text of a document of its own.

## Main results

* `Frame.Encloses.quoteStep`, `Frame.Encloses.lineCommentStep`, `Frame.Encloses.blockCommentStep`,
  `Frame.Encloses.heredocStep`: one step of each scan.
-/

namespace LexPaint

/-- The scope holds the text `u`, and the comment marks of its language do not reach over its end. -/
structure Frame.Encloses (f : Frame) (u : Text) : Prop where
  text : f.text.Encloses f.lo u
  hi_eq : f.hi = f.lo + u.size
  scope_eq : f.scope = u
  rules : ∀ r, f.dialect.comments = some r → r.Encloses f.text f.lo u

namespace Frame.Encloses

variable {f : Frame} {u : Text} {l : Layout} {condition : Condition} {k : Nat}
  {c c₀ : Option CommentCursor}

/-- The text of the scope of a document is the document. -/
lemma document_text (u : Text) (d : Dialect) : (document u d).text = u := rfl

/-- The scope of a document is the whole of it. -/
lemma document_scope (u : Text) (d : Dialect) : (document u d).scope = u := rfl

/-- The scope of a document ends with it. -/
lemma document_hi (u : Text) (d : Dialect) : (document u d).hi = u.size := rfl

/-! ### Questions -/

/-- The scanners of a scope and of its text, side by side. -/
abbrev Cursors (f : Frame) (u : Text) : Option CommentCursor → Option CommentCursor → Prop :=
  Option.Rel (CommentCursor.Moved f.text f.lo u)

/-- Both scopes start with new scanners. -/
lemma cursor (h : f.Encloses u) : Cursors f u f.cursor (document u f.dialect).cursor := by
  unfold Frame.cursor document
  cases hrules : f.dialect.comments with
  | none => exact .none
  | some r => exact .some (CommentCursor.moved_new (h.rules r hrules) h.text)

/-- Both scanners say the same about an offset. -/
lemma inBlockComment (h : f.Encloses u) (hk : k < u.size) (hc : Cursors f u c c₀) :
    (Frame.inBlockComment c (f.lo + k)).1 = (Frame.inBlockComment c₀ k).1 ∧
      Cursors f u (Frame.inBlockComment c (f.lo + k)).2 (Frame.inBlockComment c₀ k).2 := by
  cases hc with
  | none => exact ⟨rfl, .none⟩
  | @some c c₀ hc =>
    obtain ⟨hanswer, hmoved⟩ := hc.query h.text hk
    unfold Frame.inBlockComment
    refine ⟨?_, .some hmoved⟩
    dsimp only
    rw [hanswer, Option.isSome_map]

/-- The dialect accepts the same candidates in both. -/
lemma accepts (h : f.Encloses u) (k : Nat) (condition : Condition) :
    f.accepts (f.lo + k) condition = (document u f.dialect).accepts k condition := by
  have hk : minus (f.lo + k) f.lo = .ok k := minus_eq_ok_iff.mpr (Nat.add_comm ..)
  have hk₀ : minus k 0 = .ok k := minus_eq_ok_iff.mpr rfl
  unfold Frame.accepts document
  rw [hk, h.scope_eq]
  dsimp only
  rw [hk₀]

/-- An offset stands behind a line comment in one if it does in the other. -/
lemma behindLineComment (h : f.Encloses u) (k : Nat) :
    f.behindLineComment (f.lo + k) = (document u f.dialect).behindLineComment k := by
  have hk : minus (f.lo + k) f.lo = .ok k := minus_eq_ok_iff.mpr (Nat.add_comm ..)
  have hk₀ : minus k 0 = .ok k := minus_eq_ok_iff.mpr rfl
  unfold Frame.behindLineComment document
  rw [hk, h.scope_eq]
  dsimp only
  rw [hk₀]

/-! ### Strings -/

/-- Both scans refuse the same quotes. -/
lemma refusesQuote (h : f.Encloses u) (hk : k < u.size) (hc : Cursors f u c c₀) :
    Alike (f.refusesQuote (l.shift f.lo) (f.lo + k) c) ((document u f.dialect).refusesQuote l k c₀)
      fun r r₀ => r.1 = r₀.1 ∧ Cursors f u r.2 r₀.2 := by
  unfold Frame.refusesQuote
  rw [h.text.isEscaped_eq hk, h.behindLineComment, Layout.isSome_inEither_shift]
  refine .bind_same fun escaped => ?_
  cases escaped with
  | true => exact .pure ⟨rfl, hc⟩
  | false =>
    simp only [Bool.false_eq_true, if_false]
    split
    · exact .pure ⟨rfl, hc⟩
    · refine .bind_same fun behind => ?_
      cases behind with
      | true => exact .pure ⟨rfl, hc⟩
      | false => exact .pure (h.inBlockComment hk hc)

/-- A quote opens the same string in both, as there are no text blocks. -/
lemma stringAt (h : f.Encloses u) (hcondition : condition ≠ .textBlock) (singleLine : Bool)
    (quote : UInt8) (k : Nat) :
    Alike (f.stringAt condition singleLine quote (f.lo + k))
      ((document u f.dialect).stringAt condition singleLine quote k)
      fun iv iv₀ => iv = iv₀.shift f.lo := by
  have hblock (g : Frame) (pos : Nat) : g.opensTextBlock condition quote pos = .ok false := by
    simp [opensTextBlock, hcondition]
    rfl
  have hend : f.quoteEnd singleLine quote (f.lo + k) =
      f.lo + (document u f.dialect).quoteEnd singleLine quote k := by
    unfold quoteEnd
    rw [h.hi_eq, Nat.add_assoc, h.text.findClosing_eq, document_text, document_hi]
    cases u.findClosing quote singleLine (k + 1) u.size with
    | found i => exact Nat.add_assoc ..
    | lineEnd i => rfl
    | unterminated => rfl
  unfold Frame.stringAt
  rw [hblock, hblock]
  refine .pure ?_
  rw [hend]
  rfl

/-- One step of the scan for strings.

**Proof sketch.** The search for a quote, the reasons to refuse it and the end of the string are the
same in both, in this order. -/
lemma quoteStep (h : f.Encloses u) (hcondition : condition ≠ .textBlock) (singleLine : Bool)
    (hc : Cursors f u c c₀) :
    Alike (f.quoteStep (l.shift f.lo) condition singleLine (f.lo + k) c)
      ((document u f.dialect).quoteStep l condition singleLine k c₀)
      (Sweep.Move.Moved f.lo (Interval.shift f.lo) (Cursors f u)) := by
  unfold Frame.quoteStep
  rw [h.hi_eq, h.text.checkBytes_eq (Nat.le_refl _), h.text.findByte_eq _ (Nat.le_refl _)]
  refine .bind_same fun _ => ?_
  rw [document_text, document_hi]
  cases hfind : u.findByte isQuote k u.size with
  | none => exact .pure .stop
  | some start =>
    obtain ⟨-, hstart, -⟩ := Text.findByte_bounds hfind
    refine .bind (h.refusesQuote hstart hc) ?_
    rintro ⟨refused, cursor⟩ ⟨refused₀, cursor₀⟩ ⟨hrefused, hcursor⟩
    obtain rfl : refused = refused₀ := hrefused
    cases refused with
    | true => exact .pure (.go .refused (start + 1) hcursor)
    | false =>
      dsimp only
      rw [h.text.bytes start hstart]
      refine .bind (h.stringAt hcondition singleLine _ start) ?_
      rintro _ iv rfl
      refine .pure ?_
      have hnext : max (iv.shift f.lo).stop (f.lo + start + 1) = f.lo + max iv.stop (start + 1) := by
        rw [Interval.stop_shift]
        omega
      rw [hnext]
      exact .go (.accepted iv) _ hcursor

/-! ### Line comments -/

/-- Both scans refuse the same marks of line comments. -/
lemma refusesLineComment (h : f.Encloses u) (hk : k < u.size) (hc : Cursors f u c c₀) :
    Alike (f.refusesLineComment (l.shift f.lo) condition (f.lo + k) c)
      ((document u f.dialect).refusesLineComment l condition k c₀)
      fun r r₀ => r.1 = r₀.1 ∧ Cursors f u r.2 r₀.2 := by
  obtain ⟨hanswer, hmoved⟩ := h.inBlockComment hk hc
  unfold Frame.refusesLineComment
  rw [Layout.quotes_shift, IntervalSet.isSome_inString_shift, Layout.isSome_inEither_shift, h.accepts]
  split
  · exact .pure ⟨rfl, hc⟩
  · dsimp only
    rw [hanswer]
    split
    · exact .pure ⟨rfl, hmoved⟩
    · refine .bind_same fun accepted => ?_
      exact .pure ⟨rfl, hmoved⟩

/-- The states of both scans for line comments. -/
def LineStates (f : Frame) (u : Text) (s s₀ : Option CommentCursor × MarkFinder) : Prop :=
  Cursors f u s.1 s₀.1 ∧ s.2 = s₀.2.shift f.lo ∧ s₀.2.Sound u u.size

/-- One step of the scan for line comments.

**Proof sketch.** The finders find the same mark, it is refused in both or in neither, and the end of
the line is the same, where it is cut at the end of the scope. -/
lemma lineCommentStep (h : f.Encloses u) {s s₀ : Option CommentCursor × MarkFinder}
    (hs : LineStates f u s s₀) :
    Alike (f.lineCommentStep (l.shift f.lo) condition (f.lo + k) s)
      ((document u f.dialect).lineCommentStep l condition k s₀)
      (Sweep.Move.Moved f.lo (Interval.shift f.lo) (LineStates f u)) := by
  obtain ⟨c, finder⟩ := s
  obtain ⟨c₀, finder₀⟩ := s₀
  obtain ⟨hc, hfinder, hsound⟩ := hs
  dsimp only at hc hfinder hsound
  subst hfinder
  obtain ⟨hsound', hhit⟩ := hsound.find k
  unfold Frame.lineCommentStep
  dsimp only
  rw [h.hi_eq, MarkFinder.find_shift h.text, document_text, document_hi]
  dsimp only
  cases hfind : (finder₀.find u k u.size).1 with
  | none => exact .pure .stop
  | some hit =>
    obtain ⟨start, length⟩ := hit
    obtain ⟨m, hplain, rfl, -, -, hend⟩ := hhit start length hfind
    have hpos := List.length_pos_iff.mpr hplain.1
    have hlt : start < u.size := by omega
    refine .bind (h.refusesLineComment hlt hc) ?_
    rintro ⟨refused, cursor⟩ ⟨refused₀, cursor₀⟩ ⟨hrefused, hcursor⟩
    obtain rfl : refused = refused₀ := hrefused
    cases refused with
    | true =>
      dsimp only
      rw [if_pos rfl, if_pos rfl, Nat.add_assoc]
      exact .pure (.go .refused (start + m.length) ⟨hcursor, rfl, hsound'⟩)
    | false =>
      -- the scope may end in front of the line, and the text of the part ends there
      have hline := h.text.lineEnd_eq (Nat.le_of_lt hlt)
      have hline₀ : min (u.lineEnd start) u.size = u.lineEnd start :=
        Nat.min_eq_left (Text.lineEnd_le_size u start)
      have hnext : max (f.lo + u.lineEnd start) (f.lo + start + m.length) =
          f.lo + max (u.lineEnd start) (start + m.length) := by omega
      dsimp only [document]
      rw [if_neg Bool.false_ne_true, if_neg Bool.false_ne_true, hline, hline₀, hnext]
      exact .pure (.go (.accepted (⟨start, u.lineEnd start, .lineComment⟩ : Interval)) _
        ⟨hcursor, rfl, hsound'⟩)

/-! ### Block comments -/

/-- The starts of line comments are bisected alike, and the line between such a start and the offset
lies in the section. -/
lemma afterCommentStart (h : f.Encloses u) (starts : Array Nat) (hk : k ≤ u.size) :
    f.afterCommentStart (starts.map (f.lo + ·)) (f.lo + k) =
      (document u f.dialect).afterCommentStart starts k := by
  have hearly : (fun start => decide (start ≤ f.lo + k)) ∘ (f.lo + ·) =
      fun start => decide (start ≤ k) := by
    funext start
    simp
  unfold Frame.afterCommentStart
  rw [bisect_map, hearly]
  cases hn : bisect starts fun start => decide (start ≤ k) with
  | zero => rfl
  | succ n =>
    have hlt := bisect_le_size (a := starts) (p := fun start => decide (start ≤ k))
    have hget : starts[n]? = some starts[n] := Array.getElem?_eq_getElem (by omega)
    dsimp only [document]
    rw [Array.getElem?_map, hget, Option.map_some, Option.getD_some, Option.getD_some,
      h.text.checkRange_eq hk, h.text.findByte_eq _ hk, Option.isNone_map]

/-- Both scans refuse the same open marks. -/
lemma refusesBlockComment (h : f.Encloses u) (ignoreQuoted : Bool) (blocks : IntervalSet)
    (hk : k ≤ u.size) :
    f.refusesBlockComment (l.shift f.lo) condition ignoreQuoted (f.lo + k) (blocks.shift f.lo) =
      (document u f.dialect).refusesBlockComment l condition ignoreQuoted k blocks := by
  unfold Frame.refusesBlockComment
  simp only [Layout.quotes_shift, Layout.embedded_shift, Layout.commentStarts_shift,
    IntervalSet.isSome_inString_shift, Layout.isSome_inEither_shift, h.afterCommentStart _ hk,
    h.accepts]

/-- One step of the scan for block comments.

**Proof sketch.** The search for an open mark, the reasons to refuse it and the search for the close
mark are the same in both, and so is the set to which the block is added. -/
lemma blockCommentStep (h : f.Encloses u) (opener closer : Mark) (ignoreQuoted : Bool)
    (blocks : IntervalSet) :
    Alike
      (f.blockCommentStep (l.shift f.lo) condition opener closer ignoreQuoted (f.lo + k)
        (blocks.shift f.lo))
      ((document u f.dialect).blockCommentStep l condition opener closer ignoreQuoted k blocks)
      (Sweep.Move.Moved f.lo (Interval.shift f.lo) fun s s₀ => s = s₀.shift f.lo) := by
  unfold Frame.blockCommentStep
  rw [h.hi_eq, h.text.checkRange_eq (Nat.le_refl _), h.text.find_eq _ (Nat.le_refl _)]
  refine .bind_same fun _ => ?_
  rw [document_text, document_hi]
  cases hfind : u.find opener k u.size with
  | none => exact .pure .stop
  | some start =>
    obtain ⟨-, hfits, -⟩ := Text.find_bounds hfind
    dsimp only [Option.map_some]
    rw [h.refusesBlockComment ignoreQuoted blocks (show start ≤ u.size by omega)]
    refine .bind_same fun refused => ?_
    cases refused with
    | true =>
      rw [if_pos rfl, if_pos rfl, Nat.add_assoc]
      exact .pure (.go .refused (start + opener.length) rfl)
    | false =>
      rw [if_neg Bool.false_ne_true, if_neg Bool.false_ne_true, Nat.add_assoc,
        h.text.checkRange_eq (Nat.le_refl _), h.text.find_eq _ (Nat.le_refl _)]
      refine .bind_same fun _ => ?_
      -- the end of the comment, in either text
      have hgo (stop : Nat) :
          Sweep.Move.Moved f.lo (Interval.shift f.lo) (fun s s₀ => s = s₀.shift f.lo)
            (.go (.accepted ⟨f.lo + start, f.lo + stop, .blockComment⟩)
              (max (f.lo + stop) (f.lo + (start + opener.length)))
              ((blocks.shift f.lo).add ⟨f.lo + start, f.lo + stop, .blockComment⟩))
            (.go (.accepted ⟨start, stop, .blockComment⟩) (max stop (start + opener.length))
              (blocks.add ⟨start, stop, .blockComment⟩)) := by
        rw [show max (f.lo + stop) (f.lo + (start + opener.length)) =
          f.lo + max stop (start + opener.length) by omega]
        exact .go (.accepted (⟨start, stop, .blockComment⟩ : Interval)) _
          (IntervalSet.add_shift (⟨start, stop, .blockComment⟩ : Interval))
      cases u.find closer (start + opener.length) u.size with
      | none => exact .pure (hgo u.size)
      | some i =>
        refine .pure ?_
        dsimp only [Option.map_some]
        rw [Nat.add_assoc]
        exact hgo (i + closer.length)

/-! ### Heredocs -/

/-- Both scans refuse the same openers of heredocs. -/
lemma refusesHeredoc (h : f.Encloses u) (hk : k < u.size) (hc : Cursors f u c c₀) :
    Alike (f.refusesHeredoc (f.lo + k) c) ((document u f.dialect).refusesHeredoc k c₀)
      fun r r₀ => r.1 = r₀.1 ∧ Cursors f u r.2 r₀.2 := by
  obtain ⟨hanswer, hmoved⟩ := h.inBlockComment hk hc
  unfold Frame.refusesHeredoc
  rw [h.behindLineComment, h.accepts]
  refine .bind_same fun behind => ?_
  cases behind with
  | true => exact .pure ⟨rfl, hc⟩
  | false =>
    rw [if_neg Bool.false_ne_true, if_neg Bool.false_ne_true]
    dsimp only
    rw [hanswer]
    split
    · exact .pure ⟨rfl, hmoved⟩
    · refine .bind_same fun accepted => ?_
      exact .pure ⟨rfl, hmoved⟩

/-- The body of a heredoc ends at the same place.

**Proof sketch.** Induction on what is left of the scope, line by line. A line is the same in both
texts, because it is cut at the end of the scope. -/
lemma bodyEnd (h : f.Encloses u) (r : HeredocRules) (opener : HeredocOpener) (hk : k ≤ u.size) :
    Alike (f.bodyEnd r opener (f.lo + k)) ((document u f.dialect).bodyEnd r opener k)
      fun stop stop₀ => stop = f.lo + stop₀ := by
  induction hm : u.size - k using Nat.strongRecOn generalizing k with
  | _ m ih =>
    rw [Frame.bodyEnd, Frame.bodyEnd]
    rcases Nat.lt_or_ge k u.size with hlt | hge
    · have hline := h.text.lineEnd_eq hk
      have hline₀ : min (u.lineEnd k) u.size = u.lineEnd k :=
        Nat.min_eq_left (Text.lineEnd_le_size u k)
      have hle := Text.lineEnd_le_size u k
      rw [h.hi_eq, document_hi, document_text, if_pos (show f.lo + k < f.lo + u.size by omega),
        if_pos hlt, hline, hline₀]
      dsimp only
      rw [h.text.slice_eq hle]
      refine .bind_same fun line => ?_
      cases r.terminatorEnd line opener.tag opener.indented with
      | some offset => exact .pure (Nat.add_assoc ..)
      | none =>
        dsimp only
        rw [show max (f.lo + u.lineEnd k + 1) (f.lo + k + 1) = f.lo + max (u.lineEnd k + 1) (k + 1) by
          omega]
        by_cases hnext : max (u.lineEnd k + 1) (k + 1) ≤ u.size
        · exact ih (u.size - max (u.lineEnd k + 1) (k + 1)) (by omega) hnext rfl
        · -- behind the last line both searches stop
          rw [Frame.bodyEnd, Frame.bodyEnd, h.hi_eq, document_hi, if_neg (by omega), if_neg (by omega)]
          exact .pure rfl
    · rw [h.hi_eq, document_hi, if_neg (by omega), if_neg (by omega)]
      exact .pure rfl

/-- One step of the scan for heredocs. Its offsets count from the start of the scope.

**Proof sketch.** A heredoc is looked for in the text of the scope, which is the same text in both.
Only the intervals are moved to the offset of the section at the end. -/
lemma heredocStep (h : f.Encloses u) (r : HeredocRules) (hc : Cursors f u c c₀) :
    Alike (f.heredocStep r k c) ((document u f.dialect).heredocStep r k c₀)
      (Sweep.Move.Moved 0
        (fun found => (found.1.shift f.lo, found.2.shift f.lo)) (Cursors f u)) := by
  have hgo (verdict : Sweep.Verdict (Interval × Interval)) (next : Nat)
      {c c₀ : Option CommentCursor} (hc : Cursors f u c c₀) :
      Sweep.Move.Moved 0 (fun found => (found.1.shift f.lo, found.2.shift f.lo)) (Cursors f u)
        (.go (verdict.map fun found => (found.1.shift f.lo, found.2.shift f.lo)) next c)
        (.go verdict next c₀) := by
    have := Sweep.Move.Moved.go (b := 0) (R := Cursors f u)
      (g := fun found : Interval × Interval => (found.1.shift f.lo, found.2.shift f.lo)) verdict next hc
    rwa [Nat.zero_add] at this
  unfold Frame.heredocStep
  rw [h.scope_eq, document_scope]
  cases hopener : r.nextOpener u k with
  | none => exact .pure .stop
  | some opener =>
    obtain ⟨-, hlt, hstop, -⟩ := r.nextOpener_bounds hopener
    dsimp only [document]
    rw [Nat.zero_add, Nat.zero_add]
    refine .bind (h.refusesHeredoc (by omega) hc) ?_
    rintro ⟨refused, cursor⟩ ⟨refused₀, cursor₀⟩ ⟨hrefused, hcursor⟩
    obtain rfl : refused = refused₀ := hrefused
    cases refused with
    | true => exact .pure (hgo .refused _ hcursor)
    | false =>
      have hline := h.text.lineEnd_eq hstop
      have hline₀ := Text.lineEnd_le_size u opener.stop
      have hbody : min (f.text.lineEnd (f.lo + opener.stop) + 1) f.hi =
          f.lo + min (u.lineEnd opener.stop + 1) u.size := by
        rw [h.hi_eq]
        omega
      dsimp only
      rw [if_neg Bool.false_ne_true, if_neg Bool.false_ne_true, hbody]
      refine .bind (h.bodyEnd r opener (Nat.min_le_right _ _)) ?_
      rintro _ bodyStop rfl
      have hnext : minus (max (f.lo + bodyStop) (f.lo + opener.stop)) f.lo =
          .ok (max bodyStop opener.stop) := minus_eq_ok_iff.mpr (by omega)
      have hnext₀ : minus (max bodyStop opener.stop) 0 = .ok (max bodyStop opener.stop) :=
        minus_eq_ok_iff.mpr rfl
      rw [hnext, hnext₀]
      exact .ok (hgo (.accepted (⟨opener.start, opener.stop, .heredocTag⟩,
        ⟨min (u.lineEnd opener.stop + 1) u.size, bodyStop, .heredoc⟩)) _ hcursor)

/-! ### Sweeps -/

/-- A sweep over the section accepts what one over its text accepts, moved by the offset. -/
lemma collect_moved {σ τ α β : Type} {g : β → α} {R : σ → τ → Prop} (h : f.Encloses u)
    {step : Nat → σ → Checked (Sweep.Move σ α)} {step₀ : Nat → τ → Checked (Sweep.Move τ β)}
    (hstep : ∀ k s s₀, k ≤ u.size → R s s₀ →
      Alike (step (f.lo + k) s) (step₀ k s₀) (Sweep.Move.Moved f.lo g R))
    {s : σ} {s₀ : τ} (hs : R s s₀) :
    Alike (Sweep.collect step f.hi f.lo s)
      (Sweep.collect step₀ (document u f.dialect).hi (document u f.dialect).lo s₀)
      fun harvest harvest₀ => harvest = harvest₀.map g := by
  rw [h.hi_eq]
  exact Sweep.collect_moved hstep hs

end Frame.Encloses

end LexPaint
