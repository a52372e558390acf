import LexPaint.Proofs.CommentLexers

set_option relaxedAutoImplicit false
set_option autoImplicit false

/-!
# Whole comments

A comment cursor answers with whole comments. The offset that it answers holds an open mark, and the
comment ends behind the first close mark that does not overlap the open one, or with the text. Every
offset in between gets the same answer, so two comments that are answered do not overlap. The scan for
block comments gives a comment the same end.

## Main definitions

* `CommentRules.commentAt`: the comment that starts at an offset.
* `CommentRules.Inside`: what the scan has seen of a comment that it is inside of.

## Main results

* `CommentRules.Scans.inside`: a scan inside of a comment has come through its open mark.
* `CommentRules.exists_token_of_comment`: a scan reads every offset of a comment as a part of it.
* `CommentCursor.Asked.whole_comment`: what a cursor answers.
-/

namespace LexPaint

namespace CommentRules

variable {φ : Type} {r : CommentRules φ} {t : Text} {p q : LexPoint} {s pos target : Nat}

/-- The comment that starts at an offset: it ends behind the first close mark behind the open mark, or
with the text. -/
def commentAt (r : CommentRules φ) (t : Text) (start : Nat) : Interval where
  start := start
  stop :=
    match t.find r.closer (start + r.opener.length) t.size with
    | some i => i + r.closer.length
    | none => t.size
  kind := .blockComment

/-- The comment at an open mark is a block comment as the scan for these finds them. -/
lemma isBlock_commentAt (d : Dialect) (hopener : r.opener ≠ []) (hat : t.hasAt s r.opener = true) :
    (Frame.document t d).IsBlock r.opener r.closer (r.commentAt t s) where
  opens := hat
  fits := Text.le_size_of_hasAt hat hopener
  stop_eq := rfl
  kind_eq := rfl

/-- A comment ends within the text. -/
lemma stop_commentAt_le (r : CommentRules φ) (t : Text) (s : Nat) : (r.commentAt t s).stop ≤ t.size :=
  (Frame.document t .permissive).blockEnd_le r.closer _

/-- A comment ends behind its open mark, even if it is never closed. -/
lemma body_le_stop_commentAt (hopener : r.opener ≠ []) (hat : t.hasAt s r.opener = true) :
    s + r.opener.length ≤ (r.commentAt t s).stop :=
  Frame.le_blockEnd (f := Frame.document t .permissive) r.closer (Text.le_size_of_hasAt hat hopener)

variable [FiltersMarks φ]

/-! ### The open mark -/

/-- In code an open mark is one token. It leads into the comment and belongs to it. -/
lemma nextToken_of_opener (hat : t.hasAt pos r.opener = true) :
    r.nextToken t ⟨pos, .code⟩ = ⟨r.opener.length, .blockComment pos, some pos⟩ := by
  simp [nextToken, codeToken, hat]

/-- Behind an open mark the scan stands in the body of the comment. -/
lemma behind_of_opener (hopener : r.opener ≠ []) (hat : t.hasAt pos r.opener = true) :
    r.behind t ⟨pos, .code⟩ = ⟨pos + r.opener.length, .blockComment pos⟩ :=
  behind_of_token (nextToken_of_opener hat) (Text.le_size_of_hasAt hat hopener)

/-- Without an open mark no token of the code belongs to a block comment or leads into one. -/
lemma nextToken_of_not_opener (hat : t.hasAt pos r.opener = false) :
    (r.nextToken t ⟨pos, .code⟩).owner = none ∧
      ∀ s, (r.nextToken t ⟨pos, .code⟩).next ≠ .blockComment s := by
  simp only [nextToken, codeToken, hat, Bool.false_eq_true, if_false]
  split
  · simp
  · split
    · split <;> simp
    · simp

/-- Neither strings nor line comments lead into a block comment.

**Proof sketch.** A line comment and a string either go on or lead back to code. -/
lemma next_nextToken_ne_blockComment (hcode : p.lexeme ≠ .code)
    (hblock : ∀ s, p.lexeme ≠ .blockComment s) (s : Nat) :
    (r.nextToken t p).next ≠ .blockComment s := by
  obtain ⟨pos, lexeme⟩ := p
  cases lexeme with
  | code => exact absurd rfl hcode
  | blockComment start => exact absurd rfl (hblock start)
  | lineComment =>
    simp only [nextToken]
    split <;> simp
  | quote quote =>
    simp only [nextToken]
    repeat' split
    all_goals simp
  | textBlock quote =>
    simp only [nextToken]
    repeat' split
    all_goals simp

/-! ### Inside a comment -/

/-- A scan from `p` has come through the open mark at `s`, and it stands in the body of the comment that
starts there: no close mark lies in front of `pos`. -/
structure Inside (r : CommentRules φ) (t : Text) (p : LexPoint) (s pos : Nat) : Prop where
  opened : r.Scans t p ⟨s, .code⟩
  opens : t.hasAt s r.opener = true
  body_le : s + r.opener.length ≤ pos
  stop_eq : (r.commentAt t s).stop = (Frame.document t .permissive).blockEnd r.closer pos

/-- **A scan inside of a comment has come through its open mark.**

**Proof sketch.** Induction on the scan. It gets into a comment by its open mark only, and a token that
does not end the comment is a byte at which no close mark stands. -/
theorem Scans.inside (h : r.Scans t p q) (hopener : r.opener ≠ []) (hcloser : r.closer ≠ [])
    (hp : p.lexeme = .code) (hq : q.lexeme = .blockComment s) : r.Inside t p s q.pos := by
  induction h with
  | refl =>
    rw [hp] at hq
    cases hq
  | @step q h hlt ih =>
    obtain ⟨pos, lexeme⟩ := q
    cases lexeme with
    | code =>
      cases hat : t.hasAt pos r.opener with
      | true =>
        rw [behind_of_opener hopener hat] at hq ⊢
        cases hq
        exact ⟨h, hat, Nat.le_refl _, rfl⟩
      | false => exact absurd hq ((nextToken_of_not_opener hat).2 s)
    | blockComment start =>
      rcases behind_blockComment .permissive start hcloser hlt with ⟨hbehind, hstop⟩ | hbehind
      · rw [hbehind] at hq ⊢
        cases hq
        have hinside := ih rfl
        exact ⟨hinside.opened, hinside.opens, Nat.le_succ_of_le hinside.body_le,
          hinside.stop_eq.trans hstop⟩
      · rw [hbehind] at hq
        cases hq
    | lineComment => exact absurd hq (next_nextToken_ne_blockComment (by simp) (by simp) s)
    | quote quote => exact absurd hq (next_nextToken_ne_blockComment (by simp) (by simp) s)
    | textBlock quote => exact absurd hq (next_nextToken_ne_blockComment (by simp) (by simp) s)

/-- From a point inside of a comment on, the scan reads every offset in front of the comment's end by a
token of the comment.

**Proof sketch.** Induction on the distance to the offset. Inside of a comment a token is a close
mark or a single byte. A close mark ends the comment, so the offset in front of its end is reached
byte by byte, unless it lies in the close mark itself. -/
lemma exists_token_of_block (hcloser : r.closer ≠ []) (hscan : r.Scans t p ⟨pos, .blockComment s⟩)
    (hle : pos ≤ target)
    (hlt : target < (Frame.document t .permissive).blockEnd r.closer pos) :
    ∃ q, r.Scans t p q ∧ q.lexeme = .blockComment s ∧ q.pos ≤ target ∧
      target < (r.behind t q).pos := by
  have hend : (Frame.document t .permissive).blockEnd r.closer pos ≤ t.size :=
    Frame.blockEnd_le ..
  have hsize : pos < t.size := Nat.lt_of_le_of_lt hle (Nat.lt_of_lt_of_le hlt hend)
  induction hk : target - pos generalizing pos with
  | zero =>
    obtain rfl : pos = target := by omega
    refine ⟨_, hscan, rfl, Nat.le_refl _, ?_⟩
    rcases behind_blockComment .permissive s hcloser hsize with ⟨hbehind, -⟩ | hbehind
    · rw [hbehind]
      exact Nat.lt_succ_self _
    · rw [hbehind]
      exact hlt
  | succ k ih =>
    rcases behind_blockComment .permissive s hcloser hsize with ⟨hbehind, hstop⟩ | hbehind
    · have hnext := hscan.step hsize
      rw [hbehind] at hnext
      rw [hstop] at hlt hend
      exact ih hnext (by omega) hlt hend (by omega) (by omega)
    · refine ⟨_, hscan, rfl, hle, ?_⟩
      rw [hbehind]
      exact hlt

/-- **A scan reads every offset of a comment as a part of it**, once it has come to its open mark.

**Proof sketch.** An offset of the open mark belongs to the token that this mark is. Behind the mark
the scan stands in the body, where `exists_token_of_block` finds the token. -/
theorem exists_token_of_comment (hopener : r.opener ≠ []) (hcloser : r.closer ≠ [])
    (hscan : r.Scans t p ⟨s, .code⟩) (hat : t.hasAt s r.opener = true)
    (hpos : (r.commentAt t s).contains pos = true) :
    ∃ q, r.Scans t p q ∧ q.pos ≤ pos ∧ pos < (r.behind t q).pos ∧
      (r.nextToken t q).owner = some s := by
  obtain ⟨hle, hlt⟩ := Interval.contains_iff.mp hpos
  have hbehind := behind_of_opener hopener hat
  rcases Nat.lt_or_ge pos (s + r.opener.length) with hmark | hbody
  · refine ⟨_, hscan, hle, ?_, ?_⟩
    · rw [hbehind]
      exact hmark
    · rw [nextToken_of_opener hat]
  · have hsize : s < t.size :=
      Nat.lt_of_le_of_lt hle (Nat.lt_of_lt_of_le hlt (r.stop_commentAt_le t s))
    have hnext := hscan.step hsize
    rw [hbehind] at hnext
    obtain ⟨q, hq, hlexeme, h1, h2⟩ := exists_token_of_block hcloser hnext hbody hlt
    refine ⟨q, hq, h1, h2, ?_⟩
    rw [owner_nextToken (by simp [hlexeme]), hlexeme]
    rfl

/-- The token of a comment lies in the comment that starts where it says.

**Proof sketch.** A token of the code belongs to a comment only if it is an open mark, and then the
comment starts there. Any other token that belongs to a comment stands inside of one. `Scans.inside`
says that the scan has come to its open mark, and that no close mark lies between the open mark and
the token. -/
lemma comment_of_owner (hopener : r.opener ≠ []) (hcloser : r.closer ≠ []) (h : r.Scans t p q)
    (hp : p.lexeme = .code) (hsize : q.pos < t.size) (howner : (r.nextToken t q).owner = some s)
    (hle : q.pos ≤ target) (hlt : target < (r.behind t q).pos) :
    r.Scans t p ⟨s, .code⟩ ∧ t.hasAt s r.opener = true ∧
      (r.commentAt t s).contains target = true := by
  -- a token of the code is the open mark itself
  by_cases hcode : q.lexeme = .code
  · obtain ⟨pos, lexeme⟩ := q
    obtain rfl : lexeme = .code := hcode
    cases hat : t.hasAt pos r.opener with
    | true =>
      rw [nextToken_of_opener hat] at howner
      rw [behind_of_opener hopener hat] at hlt
      obtain rfl : pos = s := Option.some.inj howner
      have hbody := body_le_stop_commentAt hopener hat
      exact ⟨h, hat, Interval.contains_iff.mpr ⟨hle, Nat.lt_of_lt_of_le hlt hbody⟩⟩
    | false =>
      rw [(nextToken_of_not_opener hat).1] at howner
      cases howner
  · rw [owner_nextToken hcode] at howner
    obtain ⟨pos, lexeme⟩ := q
    cases lexeme with
    | blockComment start =>
      obtain rfl : start = s := Option.some.inj howner
      have hinside := h.inside hopener hcloser hp rfl
      have hbody := hinside.body_le
      refine ⟨hinside.opened, hinside.opens, Interval.contains_iff.mpr ⟨?_, ?_⟩⟩
      · show start ≤ target
        omega
      · rw [hinside.stop_eq]
        rcases behind_blockComment .permissive start hcloser hsize with ⟨hbehind, hstop⟩ | hbehind
        · rw [hbehind] at hlt
          rw [hstop]
          exact Nat.lt_of_lt_of_le hlt
            (Frame.le_blockEnd (f := Frame.document t .permissive) r.closer hsize)
        · rwa [hbehind] at hlt
    | code => cases howner
    | lineComment => cases howner
    | quote quote => cases howner
    | textBlock quote => cases howner

end CommentRules

namespace CommentCursor

variable {φ : Type} [FiltersMarks φ] {r : CommentRules φ} {t : Text} {start s target : Nat}
variable {c : CommentCursor φ}

/-- The scan of a cursor comes to the open mark of every comment that the cursor answers.

**Proof sketch.** The cursor answers as a new one, which answers with the owner of the token that has
the offset. Then `comment_of_owner` applies. -/
lemma Asked.comment (hc : Asked t start r c) (hopener : r.opener ≠ []) (hcloser : r.closer ≠ [])
    (htarget : target < t.size) (hs : (c.query target).1 = some s) :
    start ≤ target ∧ r.Scans t ⟨min start t.size, .code⟩ ⟨s, .code⟩ ∧ t.hasAt s r.opener = true ∧
      (r.commentAt t s).contains target = true := by
  have hr : r.HasBlockMark := .inl hopener
  rw [hc.query_eq_new hr] at hs
  have hle : min start t.size ≤ target := by
    refine Nat.le_of_not_lt fun hlt => ?_
    rw [query_new_of_lt hlt] at hs
    cases hs
  obtain ⟨q, hscan, h1, h2⟩ := hr.exists_token (p := ⟨min start t.size, .code⟩) hle htarget
  have hsize : q.pos < t.size := Nat.lt_of_le_of_lt h1 htarget
  rw [query_new_eq_owner hr hscan h1 h2 hsize] at hs
  exact ⟨by omega, CommentRules.comment_of_owner hopener hcloser hscan rfl hsize hs h1 h2⟩

/-- Every offset of a comment is answered with its start. -/
lemma Asked.query_eq_some (hc : Asked t start r c) (hopener : r.opener ≠ [])
    (hcloser : r.closer ≠ []) (hscan : r.Scans t ⟨min start t.size, .code⟩ ⟨s, .code⟩)
    (hat : t.hasAt s r.opener = true) {pos : Nat} (hpos : (r.commentAt t s).contains pos = true) :
    (c.query pos).1 = some s := by
  have hr : r.HasBlockMark := .inl hopener
  obtain ⟨q, hq, h1, h2, howner⟩ :=
    CommentRules.exists_token_of_comment hopener hcloser hscan hat hpos
  have hsize : q.pos < t.size :=
    Nat.lt_of_le_of_lt h1 (Nat.lt_of_lt_of_le (Interval.contains_iff.mp hpos).2
      (r.stop_commentAt_le t s))
  rw [hc.query_eq_new hr, query_new_eq_owner hr hq h1 h2 hsize, howner]

/-- Two comments that the scan of a cursor comes to do not overlap: the start of the later one would have
two answers.

**Proof sketch.** If the later comment started inside of the earlier one, a new cursor that is asked
for this start would answer with both. -/
lemma stop_le_of_lt (hopener : r.opener ≠ []) (hcloser : r.closer ≠ []) {s' : Nat}
    (hscan : r.Scans t ⟨min start t.size, .code⟩ ⟨s, .code⟩) (hat : t.hasAt s r.opener = true)
    (hscan' : r.Scans t ⟨min start t.size, .code⟩ ⟨s', .code⟩) (hat' : t.hasAt s' r.opener = true)
    (hlt : s < s') : (r.commentAt t s).stop ≤ s' := by
  refine Nat.le_of_not_lt fun hover => ?_
  have hbody := CommentRules.body_le_stop_commentAt hopener hat'
  have hpos : 0 < r.opener.length := List.length_pos_iff.mpr hopener
  have hin : (r.commentAt t s).contains s' = true :=
    Interval.contains_iff.mpr ⟨Nat.le_of_lt hlt, hover⟩
  have hin' : (r.commentAt t s').contains s' = true :=
    Interval.contains_iff.mpr ⟨Nat.le_refl s', by omega⟩
  have hearlier := Asked.new.query_eq_some hopener hcloser hscan hat hin
  have hlater := Asked.new.query_eq_some hopener hcloser hscan' hat' hin'
  have hsame : s = s' := Option.some.inj (hearlier.symm.trans hlater)
  omega

/-- **What a cursor answers is a whole comment.** An offset of the text that is found in a comment lies
behind the start of the cursor and between the open mark at the answered offset and the end of the first
close mark behind that mark, or of the text. So the scan for block comments would end the comment there,
too. Every offset of this comment gets the same answer, also from a cursor that was asked other questions
before, and no comment that is answered anywhere else overlaps it.

**Proof sketch.** `Asked.comment` gives the open mark and puts the offset into its comment. For an
offset of the comment the scan comes to a token of it, which every cursor answers with. Two different
comments have different starts, and the one that starts first ends in front of the other. -/
theorem Asked.whole_comment (hc : Asked t start r c) (hopener : r.opener ≠ [])
    (hcloser : r.closer ≠ []) (htarget : target < t.size) (hs : (c.query target).1 = some s) :
    start ≤ s ∧ (r.commentAt t s).contains target = true ∧
      (∀ d, (Frame.document t d).IsBlock r.opener r.closer (r.commentAt t s)) ∧
      (∀ c', Asked t start r c' → ∀ pos, (r.commentAt t s).contains pos = true →
        (c'.query pos).1 = some s) ∧
      ∀ c', Asked t start r c' → ∀ target' < t.size, ∀ s', (c'.query target').1 = some s' → s' ≠ s →
        (r.commentAt t s).stop ≤ s' ∨ (r.commentAt t s').stop ≤ s := by
  obtain ⟨hle, hscan, hat, hcontains⟩ := hc.comment hopener hcloser htarget hs
  have hstart : min start t.size ≤ s := hscan.pos_le
  refine ⟨by omega, hcontains, fun d => CommentRules.isBlock_commentAt d hopener hat, ?_, ?_⟩
  · intro c' hc' pos hpos
    exact hc'.query_eq_some hopener hcloser hscan hat hpos
  · intro c' hc' target' htarget' s' hs' hne
    obtain ⟨-, hscan', hat', -⟩ := hc'.comment hopener hcloser htarget' hs'
    rcases Nat.lt_or_gt_of_ne hne with hlt | hgt
    · exact .inr (stop_le_of_lt hopener hcloser hscan' hat' hscan hat hlt)
    · exact .inl (stop_le_of_lt hopener hcloser hscan hat hscan' hat' hgt)

/-- The star of an open mark does not close the comment together with the slash behind it. The cursor was
asked about the end of the text before. -/
theorem whole_comment_shared_star :
    let r : CommentRules := ⟨[mark "//"], mark "/*", mark "*/", false, true, .everywhere⟩
    let t := Text.ofString ";'/*'/*/ x */;"
    let c := ((new t 1 r).query 13).2
    Asked t 1 r c ∧ r.opener ≠ [] ∧ r.closer ≠ [] ∧ 6 < t.size ∧ (c.query 6).1 = some 5 ∧
      (r.commentAt t 5).stop = 13 ∧
      ∀ c', Asked t 1 r c' → ∀ pos, 5 ≤ pos → pos < 13 → (c'.query pos).1 = some 5 := by
  intro r t c
  have hc : Asked t 1 r c := Asked.new.query 13
  have hopener : r.opener ≠ [] := by decide +kernel
  have hcloser : r.closer ≠ [] := by decide +kernel
  have hsize : 6 < t.size := by decide +kernel
  have hs : (c.query 6).1 = some 5 := by decide +kernel
  have hstop : (r.commentAt t 5).stop = 13 := by decide +kernel
  obtain ⟨-, -, -, hwhole, -⟩ := hc.whole_comment hopener hcloser hsize hs
  refine ⟨hc, hopener, hcloser, hsize, hs, hstop, fun c' hc' pos h1 h2 => ?_⟩
  exact hwhole c' hc' pos (Interval.contains_iff.mpr ⟨h1, hstop.symm ▸ h2⟩)

end CommentCursor

end LexPaint
