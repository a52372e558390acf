import LexPaint.Proofs.LiteralScans

set_option relaxedAutoImplicit false
set_option autoImplicit false

/-!
# Scanners with a memory

A mark finder remembers where it saw its marks last, and a comment cursor remembers how far it has
come. The memory only saves work: each answers as a new one would.

## Main definitions

* `MarkFinder.Knows`: what a finder remembers is right from an offset on.
* `CommentRules.HasBlockMark`, `CommentRules.rank`: what makes a scan end, and how soon.
* `CommentRules.Scans`: the points that a scan comes through.
* `CommentCursor.Sound`: a cursor that stands where its own scan has come through.
* `CommentCursor.Asked`: the cursors that queries lead to.

## Main results

* `MarkFinder.find_eq_new`: a finder answers as a new one does.
* `MarkFinder.exists_mark_of_find_new`, `MarkFinder.find_new_eq_some`,
  `MarkFinder.find_new_eq_none`: what a new one answers.
* `CommentCursor.Sound.query`: a cursor answers as a new one does.
* `CommentCursor.queries_new`: so do all answers to a list of queries.
-/

namespace LexPaint

/-! ### Mark finders -/

namespace MarkFinder

variable {t : Text} {hi pos : Nat} {marks : List Mark}

/-- What is known about the next occurrence of a mark is right, as seen from an offset. -/
def Knows (t : Text) (hi pos : Nat) (slot : Mark × NextHit) : Prop :=
  match slot.2 with
  | .unknown => True
  | .hit p => t.hasAt p slot.1 = true ∧ p + slot.1.length ≤ hi ∧
      ∀ j, pos ≤ j → j < p → t.hasAt j slot.1 = false
  | .exhausted => ∀ j, pos ≤ j → j + slot.1.length ≤ hi → t.hasAt j slot.1 = false

/-- What is known at an offset is known behind it. -/
lemma Knows.mono {slot : Mark × NextHit} (h : Knows t hi pos slot) {pos' : Nat} (hle : pos ≤ pos') :
    Knows t hi pos' slot := by
  obtain ⟨m, next⟩ := slot
  cases next with
  | unknown => trivial
  | hit p => exact ⟨h.1, h.2.1, fun j hj => h.2.2 j (Nat.le_trans hle hj)⟩
  | exhausted => exact fun j hj => h j (Nat.le_trans hle hj)

/-- The slot that a search for its mark gives. -/
def searched (t : Text) (hi pos : Nat) (m : Mark) : Mark × NextHit :=
  match t.find m pos hi with
  | some p => (m, .hit p)
  | none => (m, .exhausted)

/-- A search gives a slot of the same mark. -/
lemma fst_searched (m : Mark) : (searched t hi pos m).1 = m := by
  unfold searched
  split <;> rfl

/-- What a search gives is right. -/
lemma knows_searched (m : Mark) : Knows t hi pos (searched t hi pos m) := by
  unfold searched
  split
  · rename_i p hp
    obtain ⟨-, h2, h3, h4⟩ := Text.find_eq_some_iff.mp hp
    exact ⟨h3, h2, h4⟩
  · rename_i hnone
    exact Text.find_eq_none_iff.mp hnone

/-- A search gives a hit where the mark is found. -/
lemma hit_searched {m : Mark} {p : Nat} :
    (searched t hi pos m).2 = .hit p ↔ t.find m pos hi = some p := by
  unfold searched
  split
  · rename_i q hq
    simp [hq]
  · rename_i hnone
    simp [hnone]

/-- A refreshed slot is what a search for its mark gives.

**Proof sketch.** A slot is searched anew if its hit lies behind. Otherwise the hit is still the next
one, and a mark that was exhausted stays so. -/
lemma refresh_eq {slot : Mark × NextHit} (h : Knows t hi pos slot)
    (hrange : t.checkRange pos hi = .ok ()) : refresh t pos hi slot = searched t hi pos slot.1 := by
  obtain ⟨m, next⟩ := slot
  unfold refresh
  split
  · rw [hrange]
    rfl
  · rename_i hstale
    unfold searched
    cases next with
    | unknown => exact absurd rfl hstale
    | hit p =>
      have hp : pos ≤ p := by simpa [NextHit.isStale] using hstale
      have hfind : t.find m pos hi = some p := Text.find_eq_some_iff.mpr ⟨hp, h.2.1, h.1, h.2.2⟩
      dsimp only
      rw [hfind]
    | exhausted =>
      have hfind : t.find m pos hi = none := Text.find_eq_none_iff.mpr h
      dsimp only
      rw [hfind]

/-- A search gives what new searches for the marks give. -/
lemma find_eq {finder : MarkFinder} (h : ∀ slot ∈ finder.slots, Knows t hi pos slot)
    (hrange : t.checkRange pos hi = .ok ()) :
    finder.find t pos hi =
      (((finder.slots.map Prod.fst).map (searched t hi pos)).foldl nearer none,
        ⟨(finder.slots.map Prod.fst).map (searched t hi pos)⟩) := by
  have hslots : finder.slots.map (refresh t pos hi) =
      (finder.slots.map Prod.fst).map (searched t hi pos) := by
    rw [List.map_map]
    exact List.map_congr_left fun slot hslot => refresh_eq (h slot hslot) hrange
  unfold find
  rw [hslots]

/-- A new finder knows nothing that could be wrong. -/
lemma knows_new (marks : List Mark) : ∀ slot ∈ (new marks).slots, Knows t hi pos slot := by
  intro slot hslot
  obtain ⟨m, -, rfl⟩ := List.mem_map.mp hslot
  trivial

/-- The marks of a new finder are those it was given. -/
lemma marks_new (marks : List Mark) : (new marks).slots.map Prod.fst = marks := by
  rw [new, List.map_map]
  exact List.map_id marks

/-- **A finder answers as a new one does.** What it remembers never changes an answer, as long as
the offsets asked about do not decrease. -/
theorem find_eq_new {finder : MarkFinder} (h : ∀ slot ∈ finder.slots, Knows t hi pos slot)
    (hrange : t.checkRange pos hi = .ok ()) :
    finder.find t pos hi = (new (finder.slots.map Prod.fst)).find t pos hi := by
  rw [find_eq h hrange, find_eq (knows_new _) hrange, marks_new]

/-- The nearest of several hits is one of them, and no hit is nearer.

**Proof sketch.** Induction on the slots, with the best hit so far generalised. -/
lemma nearer_spec (slots : List (Mark × NextHit)) (best : Option (Nat × Nat)) :
    (∀ p length, slots.foldl nearer best = some (p, length) →
      (∀ q length', best = some (q, length') → p ≤ q) ∧
        ∀ slot ∈ slots, ∀ q, slot.2 = .hit q → p ≤ q) ∧
    (slots.foldl nearer best = none → best = none ∧ ∀ slot ∈ slots, ∀ q, slot.2 ≠ .hit q) := by
  induction slots generalizing best with
  | nil => simp +contextual
  | cons slot rest ih =>
    obtain ⟨m, next⟩ := slot
    rw [List.foldl_cons]
    obtain ⟨hsome, hnone⟩ := ih (nearer best (m, next))
    cases next with
    | unknown => simpa [nearer] using ih best
    | exhausted => simpa [nearer] using ih best
    | hit q =>
      cases best with
      | none =>
        refine ⟨fun p length h => ?_, fun h => ?_⟩
        · have hle := (hsome p length h).1 q m.length rfl
          simpa using ⟨hle, fun a b hab => (hsome p length h).2 (a, b) hab⟩
        · exact absurd (hnone h).1 (by simp [nearer])
      | some old =>
        obtain ⟨p₀, length₀⟩ := old
        refine ⟨fun p length h => ?_, fun h => ?_⟩
        · obtain ⟨h1, h2⟩ := hsome p length h
          -- whichever of the two hits is nearer, the final one is not behind it
          have hle : p ≤ q ∧ p ≤ p₀ := by
            by_cases hlt : q < p₀
            · have := h1 q m.length (by simp [nearer, hlt])
              omega
            · have := h1 p₀ length₀ (by simp [nearer, hlt])
              omega
          simpa using ⟨hle.2, hle.1, fun a b hab => h2 (a, b) hab⟩
        · refine absurd (hnone h).1 ?_
          unfold nearer
          dsimp only
          split <;> simp

/-- A search keeps what is known right. -/
lemma knows_find {finder : MarkFinder} (h : ∀ slot ∈ finder.slots, Knows t hi pos slot)
    (hrange : t.checkRange pos hi = .ok ()) :
    (∀ slot ∈ (finder.find t pos hi).2.slots, Knows t hi pos slot) ∧
      (finder.find t pos hi).2.slots.map Prod.fst = finder.slots.map Prod.fst := by
  rw [find_eq h hrange]
  refine ⟨fun slot hslot => ?_, ?_⟩
  · obtain ⟨m, -, rfl⟩ := List.mem_map.mp hslot
    exact knows_searched m
  · show (List.map (searched t hi pos) _).map Prod.fst = _
    rw [List.map_map]
    exact (List.map_congr_left fun m _ => fst_searched m).trans (List.map_id _)

/-- The next mark is an occurrence of one of the marks. -/
lemma exists_mark_of_find_new (hrange : t.checkRange pos hi = .ok ()) {p length : Nat}
    (h : ((new marks).find t pos hi).1 = some (p, length)) :
    ∃ m ∈ marks, m.length = length ∧ pos ≤ p ∧ p + length ≤ hi ∧ t.hasAt p m = true := by
  rw [find_eq (knows_new marks) hrange, marks_new] at h
  obtain hbest | ⟨slot, hslot, hhit, hlength⟩ := mem_of_nearer h
  · cases hbest
  · obtain ⟨m, hm, rfl⟩ := List.mem_map.mp hslot
    rw [fst_searched] at hlength
    obtain ⟨h1, h2, h3⟩ := Text.find_bounds (hit_searched.mp hhit)
    exact ⟨m, hm, hlength, h1, hlength ▸ h2, h3⟩

/-- No mark occurs between an offset and the next mark. -/
theorem find_new_eq_some (hrange : t.checkRange pos hi = .ok ()) {p length : Nat}
    (h : ((new marks).find t pos hi).1 = some (p, length)) {m : Mark} (hm : m ∈ marks) {j : Nat}
    (hj : pos ≤ j) (hjp : j < p) (hend : j + m.length ≤ hi) : t.hasAt j m = false := by
  rw [find_eq (knows_new marks) hrange, marks_new] at h
  have hmin := ((nearer_spec _ _).1 p length h).2 _ (List.mem_map_of_mem hm)
  cases hfind : t.find m pos hi with
  | none => exact Text.find_eq_none_iff.mp hfind j hj hend
  | some q =>
    have hq : p ≤ q := hmin q (hit_searched.mpr hfind)
    exact (Text.find_eq_some_iff.mp hfind).2.2.2 j hj (Nat.lt_of_lt_of_le hjp hq)

/-- Where there is no next mark, no mark occurs. -/
theorem find_new_eq_none (hrange : t.checkRange pos hi = .ok ())
    (h : ((new marks).find t pos hi).1 = none) {m : Mark} (hm : m ∈ marks) {j : Nat}
    (hj : pos ≤ j) (hend : j + m.length ≤ hi) : t.hasAt j m = false := by
  rw [find_eq (knows_new marks) hrange, marks_new] at h
  have hnone := ((nearer_spec _ _).2 h).2 _ (List.mem_map_of_mem hm)
  refine Text.find_eq_none_iff.mp ?_ j hj hend
  cases hfind : t.find m pos hi with
  | none => rfl
  | some q => exact absurd (hit_searched.mpr hfind) (hnone q)

end MarkFinder

/-! ### Comment cursors -/

namespace CommentRules

variable {φ : Type} {r : CommentRules φ} {t : Text} {target : Nat} {p q : LexPoint}

/-- None of the marks is empty, so every token is at least one byte long. -/
structure Proper (r : CommentRules φ) : Prop where
  opener : r.opener ≠ []
  closer : r.closer ≠ []
  lineMarks : ∀ m ∈ r.lineMarks, m ≠ []

instance (r : CommentRules φ) : Decidable r.Proper :=
  decidable_of_iff (r.opener ≠ [] ∧ r.closer ≠ [] ∧ ∀ m ∈ r.lineMarks, m ≠ [])
    ⟨fun ⟨h1, h2, h3⟩ => ⟨h1, h2, h3⟩, fun h => ⟨h.opener, h.closer, h.lineMarks⟩⟩

/-- Not both marks of a block comment are empty, so a scan cannot go back and forth between them. -/
def HasBlockMark (r : CommentRules φ) : Prop :=
  r.opener ≠ [] ∨ r.closer ≠ []

instance (r : CommentRules φ) : Decidable r.HasBlockMark :=
  inferInstanceAs (Decidable (_ ∨ _))

/-- Rules without empty marks have a block comment mark that is not empty. -/
lemma Proper.hasBlockMark (hr : r.Proper) : r.HasBlockMark :=
  .inl hr.opener

/-- How many empty tokens can follow each other: an empty close mark, and then an empty open mark or
an empty mark of a line comment. -/
def emptyTokens (r : CommentRules φ) : Lexeme → Nat
  | .code => 1
  | .blockComment _ => if r.opener = [] then 0 else 2
  | _ => 0

/-- No more than two empty tokens follow each other. -/
lemma emptyTokens_le (r : CommentRules φ) (lexeme : Lexeme) : r.emptyTokens lexeme ≤ 2 := by
  unfold emptyTokens
  split
  · exact Nat.le_succ 1
  · split
    · exact Nat.zero_le 2
    · exact Nat.le_refl 2
  · exact Nat.zero_le 2

/-- A bound on the number of tokens that are left from a point on. -/
def rank (r : CommentRules φ) (t : Text) (p : LexPoint) : Nat :=
  3 * (t.size - p.pos) + r.emptyTokens p.lexeme

/-- The rank of a point is at most three for each byte that is left, and two more. -/
lemma rank_lt (r : CommentRules φ) (t : Text) (p : LexPoint) :
    r.rank t p < 3 * (t.size - p.pos) + 3 := by
  have hempty := r.emptyTokens_le p.lexeme
  unfold rank
  omega

variable [FiltersMarks φ]

/-- Under such rules no token is empty. -/
lemma Proper.length_pos (hr : r.Proper) (t : Text) (p : LexPoint) :
    0 < (r.nextToken t p).length := by
  unfold nextToken
  split
  · split
    · exact List.length_pos_iff.mpr hr.closer
    · exact Nat.one_pos
  · split <;> exact Nat.one_pos
  · split
    · exact Nat.two_pos
    · split
      · exact Nat.one_pos
      · split <;> exact Nat.one_pos
  · split
    · exact Nat.two_pos
    · split
      · exact Nat.succ_pos 2
      · exact Nat.one_pos
  · unfold codeToken
    split
    · exact List.length_pos_iff.mpr hr.opener
    · split
      · rename_i m hm
        have hmem : m ∈ r.lineMarks :=
          List.mem_of_find?_eq_some (Option.mem_filter_iff.mp hm).1
        exact List.length_pos_iff.mpr (hr.lineMarks m hmem)
      · split
        · split
          · exact Nat.succ_pos 2
          · exact Nat.one_pos
        · exact Nat.one_pos

/-- A token is not empty, or fewer empty ones can follow it.

**Proof sketch.** By cases on the lexeme and on what stands at the point. The only tokens that can be
empty are marks, and an empty open mark is not followed by an empty close mark. -/
lemma HasBlockMark.length_pos_or (hr : r.HasBlockMark) (t : Text) (p : LexPoint) :
    0 < (r.nextToken t p).length ∨
      r.emptyTokens (r.nextToken t p).next < r.emptyTokens p.lexeme := by
  obtain ⟨pos, lexeme⟩ := p
  cases lexeme with
  | code =>
    simp only [nextToken, codeToken]
    split
    · -- an empty open mark leads into a comment, whose close mark is not empty
      by_cases hopener : r.opener = []
      · right
        simp [emptyTokens, hopener]
      · exact .inl (List.length_pos_iff.mpr hopener)
    · split
      · exact .inr Nat.one_pos
      · left
        split
        · split <;> simp
        · exact Nat.one_pos
  | blockComment start =>
    simp only [nextToken]
    split
    · by_cases hcloser : r.closer = []
      · have hopener : r.opener ≠ [] := hr.resolve_right (not_not_intro hcloser)
        right
        simp [emptyTokens, hopener]
      · exact .inl (List.length_pos_iff.mpr hcloser)
    · exact .inl Nat.one_pos
  | lineComment =>
    left
    simp only [nextToken]
    split <;> exact Nat.one_pos
  | quote quote =>
    left
    simp only [nextToken]
    repeat' split
    all_goals simp
  | textBlock quote =>
    left
    simp only [nextToken]
    repeat' split
    all_goals simp

/-- The point behind the token at a point. -/
def behind (r : CommentRules φ) (t : Text) (p : LexPoint) : LexPoint :=
  ⟨p.pos + min (r.nextToken t p).length (t.size - p.pos), (r.nextToken t p).next⟩

/-- One step of a scan: it stops at the end of the text, or at the token that holds the target, or it
goes on behind the token. -/
lemma seek_succ (steps : Nat) :
    r.seek t target (steps + 1) p =
      if t.size ≤ p.pos then some (p.lexeme.owner, p)
      else if target < (r.behind t p).pos then some ((r.nextToken t p).owner, p)
      else r.seek t target steps (r.behind t p) := rfl

/-- A scan does not go back. -/
lemma pos_le_behind (r : CommentRules φ) (t : Text) (p : LexPoint) :
    p.pos ≤ (r.behind t p).pos :=
  Nat.le_add_right _ _

/-- Under rules without empty marks a scan advances with every token. -/
lemma Proper.lt_behind (hr : r.Proper) (hp : p.pos < t.size) : p.pos < (r.behind t p).pos := by
  have hpos := hr.length_pos t p
  show p.pos < p.pos + min _ _
  omega

/-- Every token takes the rank down. -/
lemma HasBlockMark.rank_behind_lt (hr : r.HasBlockMark) (hp : p.pos < t.size) :
    r.rank t (r.behind t p) < r.rank t p := by
  have hempty := r.emptyTokens_le (r.nextToken t p).next
  show 3 * (t.size - (p.pos + min (r.nextToken t p).length (t.size - p.pos))) +
    r.emptyTokens (r.nextToken t p).next < 3 * (t.size - p.pos) + r.emptyTokens p.lexeme
  rcases hr.length_pos_or t p with hlength | hfewer <;> omega

/-- A scan with enough steps does not depend on their number.

**Proof sketch.** Induction on the number of steps. Every token takes the rank down. -/
lemma HasBlockMark.seek_eq (hr : r.HasBlockMark) {n m : Nat} (hn : r.rank t p < n)
    (hm : r.rank t p < m) : r.seek t target n p = r.seek t target m p := by
  induction n generalizing m p with
  | zero => omega
  | succ n ih =>
    obtain ⟨m, rfl⟩ := Nat.exists_eq_succ_of_ne_zero (n := m) (by omega)
    rw [seek_succ, seek_succ]
    split
    · rfl
    · rename_i hlt
      have hstep := hr.rank_behind_lt (p := p) (t := t) (by omega)
      split
      · rfl
      · exact ih (by omega) (by omega)

/-- The points that a scan comes through. -/
inductive Scans (r : CommentRules φ) (t : Text) (p : LexPoint) : LexPoint → Prop
  | refl : Scans r t p p
  | step {q : LexPoint} (h : Scans r t p q) (hq : q.pos < t.size) : Scans r t p (r.behind t q)

/-- A scan that looks behind a point comes through it. -/
lemma Scans.seek_eq (h : r.Scans t p q) (hr : r.HasBlockMark) (hq : q.pos ≤ target) {n m : Nat}
    (hn : r.rank t p < n) (hm : r.rank t q < m) :
    r.seek t target n p = r.seek t target m q := by
  induction h generalizing m with
  | refl => exact hr.seek_eq hn hm
  | @step q h hlt ih =>
    have hstep := hr.rank_behind_lt hlt
    have hle := r.pos_le_behind t q
    rw [ih (by omega) (Nat.lt_succ_self _), seek_succ, if_neg (by omega), if_neg (by omega)]
    exact hr.seek_eq (by omega) hm

/-- A scan does not come through points in front of its start. -/
lemma Scans.pos_le (h : r.Scans t p q) : p.pos ≤ q.pos := by
  induction h with
  | refl => exact Nat.le_refl _
  | step h hlt ih => exact Nat.le_trans ih (r.pos_le_behind t _)

/-- Every offset from a point on lies in a token of the scan that starts there.

**Proof sketch.** Induction on a bound of the rank, along the scan. -/
lemma HasBlockMark.exists_token (hr : r.HasBlockMark) {pos : Nat} (hp : p.pos ≤ pos)
    (hpos : pos < t.size) :
    ∃ q, r.Scans t p q ∧ q.pos ≤ pos ∧ pos < (r.behind t q).pos := by
  have hmain : ∀ n q, r.Scans t p q → q.pos ≤ pos → r.rank t q < n →
      ∃ q, r.Scans t p q ∧ q.pos ≤ pos ∧ pos < (r.behind t q).pos := by
    intro n
    induction n with
    | zero => exact fun q _ _ hn => absurd hn (Nat.not_lt_zero _)
    | succ n ih =>
      intro q hq hle hn
      rcases Nat.lt_or_ge pos (r.behind t q).pos with hlt | hge
      · exact ⟨q, hq, hle, hlt⟩
      · have hstep := hr.rank_behind_lt (t := t) (p := q) (by omega)
        exact ih _ (hq.step (by omega)) hge (by omega)
  exact hmain (r.rank t p + 1) p .refl hp (Nat.lt_succ_self _)

/-- A scan ends, and it ends where it has come through.

**Proof sketch.** Induction on the number of steps, along the scan. -/
lemma HasBlockMark.exists_seek_eq (hr : r.HasBlockMark) (target : Nat) {n : Nat}
    (hn : r.rank t p < n) :
    ∃ answer q, r.seek t target n p = some (answer, q) ∧ r.Scans t p q := by
  have hmain : ∀ (n : Nat) (q : LexPoint), r.Scans t p q → r.rank t q < n →
      ∃ answer q', r.seek t target n q = some (answer, q') ∧ r.Scans t p q' := by
    intro n
    induction n with
    | zero => exact fun q hq hn => absurd hn (by omega)
    | succ n ih =>
      intro q hq hn
      rw [seek_succ]
      split
      · exact ⟨_, _, rfl, hq⟩
      · rename_i hlt
        split
        · exact ⟨_, _, rfl, hq⟩
        · have hstep := hr.rank_behind_lt (p := q) (t := t) (by omega)
          exact ih _ (hq.step (by omega)) (by omega)
  exact hmain n p .refl hn

end CommentRules

namespace CommentCursor

variable {φ : Type}

/-- A new cursor at the start of another one. -/
lemma new_start (t : Text) (start : Nat) (r : CommentRules φ) :
    new t (new t start r).start r = new t start r := by
  simp [new]

variable [FiltersMarks φ]

/-- A cursor that stands where its own scan has come through. -/
structure Sound (c : CommentCursor φ) : Prop where
  hasBlockMark : c.rules.HasBlockMark
  start_le : c.start ≤ c.text.size
  scanned : c.rules.Scans c.text ⟨c.start, .code⟩ c.point

/-- A new cursor stands at its own start. -/
lemma sound_new (text : Text) (start : Nat) {rules : CommentRules φ} (hr : rules.HasBlockMark) :
    (new text start rules).Sound :=
  ⟨hr, Nat.min_le_right _ _, .refl⟩

variable {c : CommentCursor φ}

/-- **A cursor answers as a new one does**, whatever it was asked before, and stays sound.

**Proof sketch.** A query in front of the point starts the scan afresh. The scan of any other query
comes through the point, so it may go on from there. -/
theorem Sound.query (h : c.Sound) (target : Nat) :
    (c.query target).1 = ((new c.text c.start c.rules).query target).1 ∧
      (c.query target).2.Sound ∧ (c.query target).2.text = c.text ∧
      (c.query target).2.start = c.start ∧ (c.query target).2.rules = c.rules := by
  have hstart : min c.start c.text.size = c.start := Nat.min_eq_left h.start_le
  by_cases hlt : target < c.start
  · simp only [CommentCursor.query, new, hstart, if_pos hlt]
    exact ⟨trivial, h, trivial, trivial, trivial⟩
  · simp only [CommentCursor.query, new, hstart, if_neg hlt]
    have hsteps := c.rules.rank_lt c.text ⟨c.start, .code⟩
    obtain ⟨answer, q, hq, hscan⟩ := h.hasBlockMark.exists_seek_eq target hsteps
    by_cases hpoint : target < c.point.pos
    · simp only [if_pos hpoint, hq]
      exact ⟨trivial, ⟨h.hasBlockMark, h.start_le, hscan⟩, trivial, trivial, trivial⟩
    · have hsame : c.rules.seek c.text target (3 * (c.text.size - c.point.pos) + 3) c.point =
          some (answer, q) :=
        (h.scanned.seek_eq h.hasBlockMark (Nat.le_of_not_lt hpoint) hsteps
          (c.rules.rank_lt ..)).symm.trans hq
      simp only [if_neg hpoint, hsame, hq]
      exact ⟨trivial, ⟨h.hasBlockMark, h.start_le, hscan⟩, trivial, trivial, trivial⟩

/-- Each of several queries in turn is answered as by a new cursor.

**Proof sketch.** Induction on the queries. A cursor stays sound and keeps its text, its start and
its rules. -/
lemma Sound.queries (h : c.Sound) (targets : List Nat) :
    c.queries targets =
      targets.map fun target => ((new c.text c.start c.rules).query target).1 := by
  induction targets generalizing c with
  | nil => rfl
  | cons target rest ih =>
    obtain ⟨hanswer, hsound, htext, hstart, hrules⟩ := h.query target
    have hrest := ih hsound
    rw [htext, hstart, hrules] at hrest
    show (c.query target).1 :: (c.query target).2.queries rest = _
    rw [List.map_cons, hanswer, hrest]

/-- **A comment cursor has no memory.** However often and in whatever order it is asked, and whether or
not the offsets lie in front of its start or behind the end of the text, each answer is the one that a
new cursor gives to that query alone. Line comment marks may be empty, and any filter may refuse them.

**Proof sketch.** Induction on the queries: each leaves the cursor where its own scan comes through. -/
theorem queries_new {r : CommentRules φ} (hr : r.HasBlockMark) (t : Text) (start : Nat)
    (targets : List Nat) :
    (new t start r).queries targets =
      targets.map fun target => ((new t start r).query target).1 := by
  have hqueries := (sound_new t start hr).queries targets
  rwa [show (new t start r).text = t from rfl, show (new t start r).rules = r from rfl,
    new_start] at hqueries

/-- The cursor starts behind the first slash. The filter refuses the two slashes there, so they are no line
comment and the comment behind them counts. The offsets asked about go back, repeat, lie behind the end,
and lie in front of the start. -/
theorem queries_new_backward :
    let r : CommentRules (Text → Nat → Bool) :=
      ⟨[mark "//"], mark "/*", mark "*/", false, true, fun _ pos => pos != 1⟩
    let c := new (Text.ofString "///x /*y*/ 'z/*' /**/") 1 r
    r.HasBlockMark ∧
      c.queries [18, 6, 6, 30, 0] = [some 17, some 5, some 5, none, none] ∧
      c.queries [18, 6, 6, 30, 0] = [18, 6, 6, 30, 0].map fun target => (c.query target).1 := by
  intro r c
  have hr : r.HasBlockMark := by decide +kernel
  refine ⟨hr, ?_, queries_new hr _ 1 _⟩
  decide +kernel

/-- The cursors that queries lead to from a new one. -/
inductive Asked (t : Text) (start : Nat) (r : CommentRules φ) : CommentCursor φ → Prop
  | new : Asked t start r (new t start r)
  | query {c : CommentCursor φ} (h : Asked t start r c) (target : Nat) :
    Asked t start r (c.query target).2

variable {t : Text} {start : Nat} {r : CommentRules φ}

/-- The cursors that queries lead to are sound, with the text, the start and the rules of the new
one. -/
lemma Asked.sound (h : Asked t start r c) (hr : r.HasBlockMark) :
    c.Sound ∧ c.text = t ∧ c.start = min start t.size ∧ c.rules = r := by
  induction h with
  | new => exact ⟨sound_new t start hr, rfl, rfl, rfl⟩
  | query h target ih =>
    obtain ⟨hsound, htext, hstart, hrules⟩ := ih
    obtain ⟨-, hsound', htext', hstart', hrules'⟩ := hsound.query target
    exact ⟨hsound', htext'.trans htext, hstart'.trans hstart, hrules'.trans hrules⟩

/-- The cursors that queries lead to answer as the new one does. -/
lemma Asked.query_eq_new (h : Asked t start r c) (hr : r.HasBlockMark) (target : Nat) :
    (c.query target).1 = ((CommentCursor.new t start r).query target).1 := by
  obtain ⟨hsound, htext, hstart, hrules⟩ := h.sound hr
  rw [(hsound.query target).1, htext, hstart, hrules]
  exact congrArg (fun c => (c.query target).1) (new_start t start r)

/-- A new cursor answers what the token of its scan says that holds the offset. -/
lemma query_new_eq_owner (hr : r.HasBlockMark) {q : LexPoint} {target : Nat}
    (hscan : r.Scans t ⟨min start t.size, .code⟩ q) (hq : q.pos ≤ target)
    (hlt : target < (r.behind t q).pos) (hsize : q.pos < t.size) :
    ((CommentCursor.new t start r).query target).1 = (r.nextToken t q).owner := by
  have hstart : min start t.size ≤ target := Nat.le_trans hscan.pos_le hq
  unfold CommentCursor.new CommentCursor.query
  dsimp only
  rw [if_neg (by omega), if_neg (by omega),
    hscan.seek_eq hr hq (m := r.rank t q + 1) (r.rank_lt ..) (Nat.lt_succ_self _),
    CommentRules.seek_succ, if_neg (by omega), if_pos hlt]

/-- In front of its start a cursor answers that there is no comment. -/
lemma query_new_of_lt {target : Nat} (h : target < min start t.size) :
    ((CommentCursor.new t start r).query target).1 = none := by
  unfold CommentCursor.new CommentCursor.query
  dsimp only
  rw [if_pos h]

end CommentCursor

end LexPaint
