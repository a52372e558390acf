import LexPaint.Proofs.ScannerMemory

set_option relaxedAutoImplicit false
set_option autoImplicit false

/-!
# Scans of comment cursors are finite

A query of a comment cursor takes token after token until it comes to the one that holds its target, or to
the end of the text. A token may be empty, so the offset alone does not show that this comes to an end: an
empty close mark ends a comment where it stands, and an empty open mark or an empty mark of a line comment
may start another one there. Unless both marks of a block comment are empty, at most two empty tokens
follow each other, and the number of bytes that are left bounds the number of tokens. If both are empty, a
scan of code never gets any further.

The definition of a query grants it a number of steps. The scan itself is described here without one, as a
relation whose derivations are the finite scans.

## Main definitions

* `CommentRules.Seeks`: the finite scans for a target, with the number of tokens that they pass over.
* `CommentCursor.resumed`: the point at which a query takes up the scan.

## Main results

* `CommentRules.seek_eq_some_iff`: a bounded scan answers what a finite scan within the bound does.
* `CommentRules.HasBlockMark.exists_seeks`: there is a finite scan from every point.
* `CommentRules.not_seeks_of_empty`: between empty marks there is none.
* `CommentCursor.query_finite`: every query of every cursor is answered by a finite scan.
-/

namespace LexPaint

namespace CommentRules

variable {φ : Type} [FiltersMarks φ] {r : CommentRules φ} {t : Text} {target n steps : Nat}
variable {p q : LexPoint} {answer : Option Nat}

/-- The finite scans for a target. `Seeks r t target n p answer q` says that a scan from the point `p`
passes over `n` tokens and stops at the point `q` with an answer. It stops at the end of the text and in
front of the token that holds the target. -/
inductive Seeks (r : CommentRules φ) (t : Text) (target : Nat) :
    Nat → LexPoint → Option Nat → LexPoint → Prop
  | atEnd {p : LexPoint} (hend : t.size ≤ p.pos) : Seeks r t target 0 p p.lexeme.owner p
  | inToken {p : LexPoint} (hp : p.pos < t.size) (hin : target < (r.behind t p).pos) :
    Seeks r t target 0 p (r.nextToken t p).owner p
  | pass {n : Nat} {p q : LexPoint} {answer : Option Nat} (hp : p.pos < t.size)
    (hbehind : (r.behind t p).pos ≤ target) (hrest : Seeks r t target n (r.behind t p) answer q) :
    Seeks r t target (n + 1) p answer q

/-- A bounded scan answers what a finite scan does that is shorter than the bound.

**Proof sketch.** Induction on the bound, one token a step. A scan of the relation that goes on takes
the same token as the bounded one. -/
theorem seek_eq_some_iff :
    r.seek t target steps p = some (answer, q) ↔ ∃ n < steps, r.Seeks t target n p answer q := by
  induction steps generalizing p with
  | zero => simp [seek]
  | succ steps ih =>
    rw [seek_succ]
    constructor
    · intro h
      split at h
      · rename_i hend
        obtain ⟨rfl, rfl⟩ : p.lexeme.owner = answer ∧ p = q := by simpa using h
        exact ⟨0, Nat.succ_pos _, .atEnd hend⟩
      · rename_i hp
        split at h
        · rename_i hin
          obtain ⟨rfl, rfl⟩ : (r.nextToken t p).owner = answer ∧ p = q := by simpa using h
          exact ⟨0, Nat.succ_pos _, .inToken (Nat.lt_of_not_le hp) hin⟩
        · rename_i hbehind
          obtain ⟨n, hn, hrest⟩ := ih.mp h
          exact ⟨n + 1, Nat.succ_lt_succ hn,
            .pass (Nat.lt_of_not_le hp) (Nat.le_of_not_lt hbehind) hrest⟩
    · rintro ⟨n, hn, hseeks⟩
      cases hseeks with
      | atEnd hend => rw [if_pos hend]
      | inToken hp hin => rw [if_neg (Nat.not_le_of_lt hp), if_pos hin]
      | pass hp hbehind hrest =>
        rw [if_neg (Nat.not_le_of_lt hp), if_neg (Nat.not_lt_of_le hbehind)]
        exact ih.mpr ⟨_, Nat.lt_of_succ_lt_succ hn, hrest⟩

/-- **From every point there is a finite scan.** It passes over no more tokens than the rank of the point,
which every token takes down: a token that is not empty leaves fewer bytes, and behind an empty one fewer
empty ones can follow. -/
theorem HasBlockMark.exists_seeks (hr : r.HasBlockMark) (t : Text) (target : Nat) (p : LexPoint) :
    ∃ n answer q, n ≤ r.rank t p ∧ r.Seeks t target n p answer q := by
  obtain ⟨answer, q, hseek, -⟩ := hr.exists_seek_eq target (Nat.lt_succ_self (r.rank t p))
  obtain ⟨n, hn, hseeks⟩ := seek_eq_some_iff.mp hseek
  exact ⟨n, answer, q, Nat.le_of_lt_succ hn, hseeks⟩

/-! ### Both marks empty -/

/-- The points at which empty marks follow each other: in code and in block comments. -/
def AtMark (t : Text) (p : LexPoint) : Prop :=
  p.pos < t.size ∧ (p.lexeme = .code ∨ ∃ start, p.lexeme = .blockComment start)

/-- Between empty marks a scan stays where it is.

**Proof sketch.** In the code an empty open mark starts a block comment, and in a block comment an
empty close mark ends it, both without a byte. -/
lemma behind_of_empty (hopener : r.opener = []) (hcloser : r.closer = []) (hp : AtMark t p) :
    (r.behind t p).pos = p.pos ∧ AtMark t (r.behind t p) := by
  obtain ⟨hpos, hlexeme⟩ := hp
  obtain ⟨pos, lexeme⟩ := p
  rcases hlexeme with rfl | ⟨start, rfl⟩
  · have hempty : r.behind t ⟨pos, .code⟩ = ⟨pos, .blockComment pos⟩ := by
      simp [behind, nextToken, codeToken, hopener, Text.hasAt]
    rw [hempty]
    exact ⟨rfl, hpos, .inr ⟨pos, rfl⟩⟩
  · have hempty : r.behind t ⟨pos, .blockComment start⟩ = ⟨pos, .code⟩ := by
      simp [behind, nextToken, hcloser, Text.hasAt]
    rw [hempty]
    exact ⟨rfl, hpos, .inl rfl⟩

/-- **Between empty marks there is no finite scan** for a target that lies no earlier. -/
theorem not_seeks_of_empty (hopener : r.opener = []) (hcloser : r.closer = []) (hp : AtMark t p)
    (htarget : p.pos ≤ target) : ¬ r.Seeks t target n p answer q := by
  intro hseeks
  induction hseeks with
  | atEnd hend => exact absurd hp.1 (Nat.not_lt_of_le hend)
  | inToken _ hin =>
    rw [(behind_of_empty hopener hcloser hp).1] at hin
    exact absurd htarget (Nat.not_le_of_lt hin)
  | pass _ hbehind _ ih => exact ih (behind_of_empty hopener hcloser hp).2 hbehind

end CommentRules

namespace CommentCursor

variable {φ : Type}

/-- The point at which a query takes up the scan: at its start, for a target in front of the point that
the last query has left. -/
def resumed (c : CommentCursor φ) (target : Nat) : LexPoint :=
  if target < c.point.pos then ⟨c.start, .code⟩ else c.point

variable [FiltersMarks φ]

/-- **Every query ends.** Whatever the text, the start, the target, the line comment marks and their filter
are, and whatever the point is that earlier queries have left, a query in front of the start is answered at
once. For any other query there is a finite scan from where it takes up the scan, over at most three tokens
for each byte that is left and two more, and the query answers what this scan answers and stops where it
stops.

**Proof sketch.** From every point there is a finite scan (`HasBlockMark.exists_seeks`), and the
bound that the query grants is larger than its number of tokens (`rank_lt`). So the bounded scan
answers what this one does. -/
theorem query_finite (c : CommentCursor φ) (hr : c.rules.HasBlockMark) (target : Nat) :
    (target < c.start ∧ c.query target = (none, c)) ∨
      (c.start ≤ target ∧ ∃ n answer q, n ≤ 3 * (c.text.size - (c.resumed target).pos) + 2 ∧
        c.rules.Seeks c.text target n (c.resumed target) answer q ∧
        c.query target = (answer, { c with point := q })) := by
  rcases Nat.lt_or_ge target c.start with hlt | hge
  · exact .inl ⟨hlt, by rw [query, if_pos hlt]⟩
  · right
    obtain ⟨n, answer, q, hn, hseeks⟩ := hr.exists_seeks c.text target (c.resumed target)
    have hsteps := c.rules.rank_lt c.text (c.resumed target)
    have hseek : c.rules.seek c.text target (3 * (c.text.size - (c.resumed target).pos) + 3)
        (c.resumed target) = some (answer, q) :=
      CommentRules.seek_eq_some_iff.mpr ⟨n, by omega, hseeks⟩
    refine ⟨hge, n, answer, q, by omega, hseeks, ?_⟩
    unfold query
    rw [if_neg (Nat.not_lt_of_le hge)]
    dsimp only
    rw [← resumed, hseek]

/-- Every comment ends where its open mark ends, and an empty mark starts a line comment there. The first
query has left the scan behind these empty tokens, and the second one takes it up there. -/
theorem query_finite_empty_marks :
    let r : CommentRules (Text → Nat → Bool) :=
      ⟨[mark ""], mark "/*", mark "", false, false, fun _ pos => pos != 0⟩
    let c := ((new (Text.ofString "/*x\n/*") 0 r).query 2).2
    c.rules.HasBlockMark ∧ c.resumed 5 = ⟨2, .lineComment⟩ ∧ (c.query 5).1 = some 4 ∧
      ∃ n answer q, n ≤ 3 * (c.text.size - 2) + 2 ∧
        c.rules.Seeks c.text 5 n ⟨2, .lineComment⟩ answer q ∧
        c.query 5 = (answer, { c with point := q }) := by
  intro r c
  have hr : c.rules.HasBlockMark := by decide +kernel
  have hresumed : c.resumed 5 = ⟨2, .lineComment⟩ := by decide +kernel
  have hstart : ¬ 5 < c.start := by decide +kernel
  have hrun := (query_finite c hr 5).resolve_left fun h => hstart h.1
  rw [hresumed] at hrun
  exact ⟨hr, hresumed, by decide +kernel, hrun.2⟩

end CommentCursor

end LexPaint
