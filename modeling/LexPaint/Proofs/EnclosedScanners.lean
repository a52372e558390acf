import LexPaint.Proofs.EnclosedTexts
import LexPaint.Proofs.ScannerMemory

set_option relaxedAutoImplicit false
set_option autoImplicit false

/-!
# Scanners over texts inside texts

A scanner that runs over a document from the start of an embedded section comes through the same points
as one that runs over the text of the section alone, as long as no mark reaches over the end of the
section. The first one does not stop there, but no question about the section sees what it does behind.

## Main definitions

* `Sweep.Move.Moved`: two steps that do the same, the one moved by an offset.
* `CommentRules.Encloses`: comment rules whose marks do not reach over the end of a section.
* `CommentCursor.Moved`: a scanner of the document and one of the section, side by side.

## Main results

* `Sweep.collect_moved`: sweeps that take the same steps.
* `CommentCursor.Moved.query`: both scanners give the same answer.
* `MarkFinder.find_shift`: so do both finders.
-/

namespace LexPaint

/-! ### Sweeps -/

namespace Sweep

variable {σ τ α β : Type}

/-- The verdict with its candidate mapped. -/
def Verdict.map (g : β → α) : Verdict β → Verdict α
  | .nothing => .nothing
  | .refused => .refused
  | .accepted item => .accepted (g item)

/-- The harvest with its items mapped. -/
def Harvest.map (g : β → α) (h : Harvest β) : Harvest α :=
  ⟨h.items.map g, h.refusals⟩

/-- Two steps that do the same. The offsets of the first one are moved by `b`, its candidates are
mapped, and the states that they carry along are related. -/
inductive Move.Moved (b : Nat) (g : β → α) (R : σ → τ → Prop) : Move σ α → Move τ β → Prop
  | stop : Move.Moved b g R .stop .stop
  | go (verdict : Verdict β) (next : Nat) {s : σ} {s₀ : τ} (h : R s s₀) :
    Move.Moved b g R (.go (verdict.map g) (b + next) s) (.go verdict next s₀)

variable {g : β → α} {R : σ → τ → Prop} {b n : Nat}

/-- An empty harvest stays empty. -/
lemma Harvest.map_empty : (Harvest.empty : Harvest β).map g = .empty := by
  simp [Harvest.empty, Harvest.map]

/-- A candidate may be mapped before or after it is added. -/
lemma Harvest.map_add (h : Harvest β) (verdict : Verdict β) :
    (h.map g).add (verdict.map g) = (h.add verdict).map g := by
  cases verdict <;> simp [Harvest.add, Harvest.map, Verdict.map]

/-- Mapping a harvest keeps how many candidates were tested. -/
lemma Harvest.tested_map (h : Harvest β) : (h.map g).tested = h.tested := by
  simp [Harvest.tested, Harvest.map]

variable {step : Nat → σ → Checked (Move σ α)} {step₀ : Nat → τ → Checked (Move τ β)}

/-- Sweeps that take the same steps harvest the same.

**Proof sketch.** Induction on what is left of the range. Equal steps lead to equal offsets with related
states, so the sweeps stay side by side. -/
theorem run_moved
    (hstep : ∀ k s s₀, k ≤ n → R s s₀ → Alike (step (b + k) s) (step₀ k s₀) (Move.Moved b g R))
    {k : Nat} (hk : k ≤ n) {s : σ} {s₀ : τ} (hs : R s s₀) (h₀ : Harvest β) :
    Alike (run step (b + n) (b + k) s (h₀.map g)) (run step₀ n k s₀ h₀)
      fun r r₀ => r.1 = r₀.1.map g := by
  induction hm : n - k using Nat.strongRecOn generalizing k s s₀ h₀ with
  | _ m ih =>
    rw [run, run]
    have hmoves := hstep k s s₀ hk hs
    cases hrun : step (b + k) s with
    | error fault =>
      intro r r₀ hr
      cases hr
    | ok move =>
      cases hrun₀ : step₀ k s₀ with
      | error fault =>
        intro r r₀ _ hr₀
        cases hr₀
      | ok move₀ =>
        cases hmoves move move₀ hrun hrun₀ with
        | stop => exact .ok rfl
        | @go verdict next s' s₀' hs' =>
          dsimp only
          rw [Harvest.map_add]
          by_cases hnext : n < next
          · rw [if_pos (show b + n < b + next by omega)]
            intro r r₀ hr
            cases hr
          · rw [if_neg (show ¬ b + n < b + next by omega), if_neg hnext]
            by_cases hlt : k < next
            · rw [if_pos (show b + k < b + next by omega), if_pos hlt]
              exact ih (n - next) (by omega) (by omega) hs' _ rfl
            · rw [if_neg (show ¬ b + k < b + next by omega), if_neg hlt]
              exact .ok rfl

/-- Sweeps that take the same steps from the start of a section give the same harvest. -/
theorem collect_moved
    (hstep : ∀ k s s₀, k ≤ n → R s s₀ → Alike (step (b + k) s) (step₀ k s₀) (Move.Moved b g R))
    {s : σ} {s₀ : τ} (hs : R s s₀) :
    Alike (collect step (b + n) b s) (collect step₀ n 0 s₀) fun h h₀ => h = h₀.map g := by
  have hrun := run_moved hstep (Nat.zero_le n) hs .empty
  rw [Nat.add_zero, Harvest.map_empty] at hrun
  exact .bind hrun fun _ _ h => .pure h

/-- Sweeps over one scope that accept the same in different terms. -/
lemma collect_moved_zero
    (hstep : ∀ k s s₀, k ≤ n → R s s₀ → Alike (step k s) (step₀ k s₀) (Move.Moved 0 g R))
    {s : σ} {s₀ : τ} (hs : R s s₀) :
    Alike (collect step n 0 s) (collect step₀ n 0 s₀) fun h h₀ => h = h₀.map g := by
  have hcollect := collect_moved (b := 0) (n := n) (fun k s s₀ hk hR => by
    rw [Nat.zero_add]
    exact hstep k s s₀ hk hR) hs
  rwa [Nat.zero_add] at hcollect

end Sweep

/-! ### Comment cursors -/

/-- What the scanner is inside of, moved by an offset. -/
def Lexeme.shift (b : Nat) : Lexeme → Lexeme
  | .blockComment start => .blockComment (b + start)
  | lexeme => lexeme

/-- A point of the scanner moved by an offset. -/
def LexPoint.shift (b : Nat) (p : LexPoint) : LexPoint :=
  ⟨b + p.pos, p.lexeme.shift b⟩

/-- A token moved by an offset. -/
def Token.shift (b : Nat) (token : Token) : Token :=
  ⟨token.length, token.next.shift b, token.owner.map (b + ·)⟩

namespace CommentRules

/-- The marks that the scanner looks for, with the mark of an attribute. -/
def marks (r : CommentRules) : List Mark :=
  [r.opener, r.closer, [0x23, 0x5B]] ++ r.lineMarks

/-- Comment rules without text blocks whose marks are not empty and do not reach over the end of the
inner text, and that do not look at what stands before a mark. -/
structure Encloses (r : CommentRules) (t : Text) (lo : Nat) (u : Text) : Prop where
  proper : r.Proper
  fences : ∀ m ∈ r.marks, t.Fences lo u m
  ahead : r.lineFilter ≠ .notBehindDollar
  noBlocks : r.textBlocks = false

namespace Encloses

variable {r : CommentRules} {t u : Text} {lo k : Nat}

/-- A mark of the scanner occurs in the document where it occurs in the section. -/
lemma hasAt_eq (hr : r.Encloses t lo u) (ht : t.Encloses lo u) {m : Mark} (hm : m ∈ r.marks)
    (hne : m ≠ []) (hk : k < u.size) : t.hasAt (lo + k) m = u.hasAt k m :=
  ht.hasAt_eq_of_fences (hr.fences m hm) hne hk

/-- So does the open mark of block comments. -/
lemma opener_eq (hr : r.Encloses t lo u) (ht : t.Encloses lo u) (hk : k < u.size) :
    t.hasAt (lo + k) r.opener = u.hasAt k r.opener :=
  hr.hasAt_eq ht (by simp [marks]) hr.proper.opener hk

/-- So does their close mark. -/
lemma closer_eq (hr : r.Encloses t lo u) (ht : t.Encloses lo u) (hk : k < u.size) :
    t.hasAt (lo + k) r.closer = u.hasAt k r.closer :=
  hr.hasAt_eq ht (by simp [marks]) hr.proper.closer hk

/-- So does the first line comment mark that occurs. -/
lemma lineMark_eq (hr : r.Encloses t lo u) (ht : t.Encloses lo u) (hk : k < u.size) :
    r.lineMarks.find? (t.hasAt (lo + k)) = r.lineMarks.find? (u.hasAt k) := by
  have hat : ∀ m ∈ r.lineMarks, t.hasAt (lo + k) m = u.hasAt k m := fun m hm =>
    hr.hasAt_eq ht (by simp [marks, hm]) (hr.proper.lineMarks m hm) hk
  generalize r.lineMarks = ms at hat
  induction ms with
  | nil => rfl
  | cons m rest ih =>
    rw [List.find?_cons, List.find?_cons, hat m (List.mem_cons_self ..),
      ih fun m' hm' => hat m' (List.mem_cons_of_mem _ hm')]

/-- The filter for line comment marks, which does not look in front of a mark, answers alike for both
texts. -/
lemma admits_eq (hr : r.Encloses t lo u) (ht : t.Encloses lo u) (hk : k < u.size) :
    r.lineFilter.admits t (lo + k) = r.lineFilter.admits u k := by
  cases hfilter : r.lineFilter with
  | everywhere => rfl
  | notBehindDollar => exact absurd hfilter hr.ahead
  | notAttribute =>
    have hat : t.hasAt (lo + k) [0x23, 0x5B] = u.hasAt k [0x23, 0x5B] :=
      hr.hasAt_eq ht (by simp [marks]) (List.cons_ne_nil _ _) hk
    simp [MarkFilter.admits, hat]

/-- Both scanners read the same token outside strings and comments. -/
lemma codeToken_eq (hr : r.Encloses t lo u) (ht : t.Encloses lo u) (hk : k < u.size) :
    r.codeToken t (lo + k) = (r.codeToken u k).shift lo := by
  unfold codeToken
  rw [FiltersMarks.admits_markFilter, hr.opener_eq ht hk, hr.lineMark_eq ht hk, hr.admits_eq ht hk,
    ht.bytes k hk]
  split
  · rfl
  · split
    · rfl
    · split
      · simp [hr.noBlocks, Token.shift, Lexeme.shift]
      · rfl

/-- Both scanners read the same token at a point of the inner text.

**Proof sketch.** By cases on the lexeme. Each reads the byte at the point or asks for one of the
marks, and both texts have the same there. -/
lemma nextToken_eq (hr : r.Encloses t lo u) (ht : t.Encloses lo u) {p : LexPoint}
    (hp : p.pos < u.size) (hblock : ∀ quote, p.lexeme ≠ .textBlock quote) :
    r.nextToken t (p.shift lo) = (r.nextToken u p).shift lo := by
  obtain ⟨pos, lexeme⟩ := p
  have hbyte := ht.byteIs_eq hp
  cases lexeme with
  | code => exact hr.codeToken_eq ht hp
  | quote q =>
    simp only [nextToken, LexPoint.shift, Lexeme.shift, hbyte]
    split
    · rfl
    · split
      · rfl
      · split <;> rfl
  | textBlock q => exact absurd rfl (hblock q)
  | lineComment =>
    simp only [nextToken, LexPoint.shift, Lexeme.shift, hbyte]
    split <;> rfl
  | blockComment start =>
    simp only [nextToken, LexPoint.shift, Lexeme.shift, hr.closer_eq ht hp]
    split <;> rfl

/-- Where there are no text blocks, no token leads into one.

**Proof sketch.** By cases on the lexeme and on the branches of the program. -/
lemma next_nextToken_ne (hr : r.Encloses t lo u) {p : LexPoint}
    (hblock : ∀ quote, p.lexeme ≠ .textBlock quote) (quote : UInt8) :
    (r.nextToken u p).next ≠ .textBlock quote := by
  obtain ⟨pos, lexeme⟩ := p
  cases lexeme with
  | code =>
    simp only [nextToken, codeToken, hr.noBlocks, Bool.false_and, Bool.false_eq_true, if_false]
    split
    · simp
    · split
      · simp
      · split <;> simp
  | quote q =>
    simp only [nextToken]
    split
    · simp
    · split
      · simp
      · split <;> simp
  | textBlock q => exact absurd rfl (hblock q)
  | lineComment =>
    simp only [nextToken]
    split <;> simp
  | blockComment start =>
    simp only [nextToken]
    split <;> simp

/-- A scan that starts outside text blocks meets none. -/
lemma noBlock_of_scans (hr : r.Encloses t lo u) {p q : LexPoint} (h : r.Scans u p q)
    (hblock : ∀ quote, p.lexeme ≠ .textBlock quote) : ∀ quote, q.lexeme ≠ .textBlock quote := by
  induction h with
  | refl => exact hblock
  | step h hlt ih => exact hr.next_nextToken_ne ih

/-- A scan of the document from a point of the inner text answers questions about the inner text as the
scan of the inner text does, and stops at the same point.

**Proof sketch.** Induction on what is left of the inner text. Both scans read the same token. If it
holds the target in one text, it does so in the other; otherwise it ends before the inner text does, and
both go on at the same point. -/
lemma seek_eq (hr : r.Encloses t lo u) (ht : t.Encloses lo u) (hk : k < u.size) {n n₀ : Nat}
    {p : LexPoint} (hp : p.pos ≤ k) (hblock : ∀ quote, p.lexeme ≠ .textBlock quote)
    (hn : t.size - (lo + p.pos) < n) (hn₀ : u.size - p.pos < n₀) :
    r.seek t (lo + k) n (p.shift lo) =
      (r.seek u k n₀ p).map fun found => (found.1.map (lo + ·), found.2.shift lo) := by
  have hfits := ht.fits
  induction hm : u.size - p.pos using Nat.strongRecOn generalizing p n n₀ with
  | _ m ih =>
    obtain ⟨n, rfl⟩ := Nat.exists_eq_succ_of_ne_zero (n := n) (by omega)
    obtain ⟨n₀, rfl⟩ := Nat.exists_eq_succ_of_ne_zero (n := n₀) (by omega)
    have htoken := hr.nextToken_eq ht (show p.pos < u.size by omega) hblock
    have hpos : (r.behind t (p.shift lo)).pos =
        lo + p.pos + min (r.nextToken u p).length (t.size - (lo + p.pos)) := by
      rw [behind, htoken]
      rfl
    have hpos₀ : (r.behind u p).pos = p.pos + min (r.nextToken u p).length (u.size - p.pos) := rfl
    -- neither text has ended
    have hinside : ¬ t.size ≤ (p.shift lo).pos := by
      show ¬ t.size ≤ lo + p.pos
      omega
    rw [seek_succ, seek_succ, if_neg hinside, if_neg (show ¬ u.size ≤ p.pos by omega)]
    by_cases hhere : k < (r.behind u p).pos
    · rw [if_pos (by omega), if_pos hhere, htoken]
      rfl
    · -- the token ends in the inner text, so the end of the outer one does not cut it off
      have hbehind : r.behind t (p.shift lo) = (r.behind u p).shift lo := by
        have hsame : (r.behind t (p.shift lo)).pos = lo + (r.behind u p).pos := by omega
        have hnext : (r.behind t (p.shift lo)).lexeme = (r.behind u p).lexeme.shift lo :=
          congrArg Token.next htoken
        exact (LexPoint.mk.injEq ..).mpr ⟨hsame, hnext⟩
      have hadvance := hr.proper.lt_behind (show p.pos < u.size by omega)
      rw [if_neg (by omega), if_neg hhere, hbehind]
      exact ih (u.size - (r.behind u p).pos) (by omega) (by omega) (hr.next_nextToken_ne hblock)
        (by omega) (by omega) rfl

end Encloses

end CommentRules

/-- A scanner of the document that starts where the inner text does, and a scanner of the inner text,
which stand at the same point. -/
structure CommentCursor.Moved (t : Text) (lo : Nat) (u : Text) (c c₀ : CommentCursor) : Prop where
  rules : c₀.rules.Encloses t lo u
  text_eq : c.text = t
  text_eq₀ : c₀.text = u
  rules_eq : c.rules = c₀.rules
  start_eq : c.start = lo
  start_eq₀ : c₀.start = 0
  point_eq : c.point = c₀.point.shift lo
  noBlock : ∀ quote, c₀.point.lexeme ≠ .textBlock quote

namespace CommentCursor

variable {t u : Text} {lo k : Nat} {c c₀ : CommentCursor}

/-- New scanners stand at the same point. -/
lemma moved_new {rules : CommentRules} (hr : rules.Encloses t lo u) (ht : t.Encloses lo u) :
    (new t lo rules).Moved t lo u (new u 0 rules) := by
  have hfits := ht.fits
  have hlo : min lo t.size = lo := by omega
  have hzero : min 0 u.size = 0 := by omega
  refine ⟨hr, rfl, rfl, rfl, hlo, hzero, ?_, by simp [new]⟩
  simp [new, hlo, LexPoint.shift, Lexeme.shift]

/-- **Both scanners answer alike** about an offset of the inner text.

**Proof sketch.** Either both start afresh, or both go on from where they stand. From there on both scans
stop at the same point. -/
lemma Moved.query (h : c.Moved t lo u c₀) (ht : t.Encloses lo u) (hk : k < u.size) :
    (c.query (lo + k)).1 = (c₀.query k).1.map (lo + ·) ∧
      (c.query (lo + k)).2.Moved t lo u (c₀.query k).2 := by
  have hfits := ht.fits
  obtain ⟨p₀, hp₀, hblock, hpoint, hpoint₀⟩ : ∃ p₀ : LexPoint, p₀.pos ≤ k ∧
      (∀ quote, p₀.lexeme ≠ .textBlock quote) ∧
      (if lo + k < c.point.pos then (⟨c.start, .code⟩ : LexPoint) else c.point) = p₀.shift lo ∧
      (if k < c₀.point.pos then (⟨c₀.start, .code⟩ : LexPoint) else c₀.point) = p₀ := by
    by_cases hlt : k < c₀.point.pos
    · refine ⟨⟨0, .code⟩, Nat.zero_le k, by simp, ?_, ?_⟩
      · rw [if_pos (by rw [h.point_eq]; exact Nat.add_lt_add_left hlt lo), h.start_eq]
        rfl
      · rw [if_pos hlt, h.start_eq₀]
    · refine ⟨c₀.point, Nat.le_of_not_lt hlt, h.noBlock, ?_, if_neg hlt⟩
      rw [h.point_eq, if_neg (by show ¬ lo + k < lo + c₀.point.pos; omega)]
  have hseek := h.rules.seek_eq ht hk hp₀ hblock
    (show t.size - (lo + p₀.pos) < 3 * (t.size - (p₀.shift lo).pos) + 3 by
      show _ < 3 * (t.size - (lo + p₀.pos)) + 3
      omega)
    (show u.size - p₀.pos < 3 * (u.size - p₀.pos) + 3 by omega)
  simp only [CommentCursor.query, h.start_eq, h.start_eq₀, if_neg (show ¬ lo + k < lo by omega),
    if_neg (Nat.not_lt_zero k)] at hpoint hpoint₀ ⊢
  obtain ⟨answer, q, hfound, hscans⟩ :=
    h.rules.proper.hasBlockMark.exists_seek_eq k (c₀.rules.rank_lt u p₀)
  rw [hpoint, hpoint₀, h.text_eq, h.text_eq₀, h.rules_eq, hseek, hfound]
  exact ⟨rfl, h.rules, rfl, rfl, rfl, rfl, rfl, rfl, h.rules.noBlock_of_scans hscans hblock⟩

end CommentCursor

/-! ### Mark finders -/

/-- What a finder knows about a mark, moved by an offset. -/
def NextHit.shift (b : Nat) : NextHit → NextHit
  | .hit pos => .hit (b + pos)
  | next => next

namespace MarkFinder

/-- A finder whose knowledge is moved by an offset. -/
def shift (b : Nat) (finder : MarkFinder) : MarkFinder :=
  ⟨finder.slots.map fun slot => (slot.1, slot.2.shift b)⟩

variable {t u : Text} {lo k : Nat}

/-- A new finder knows nothing, so it may be moved. -/
lemma shift_new (b : Nat) (marks : List Mark) : (new marks).shift b = new marks := by
  simp [shift, new, NextHit.shift]

/-- What a finder learns about a mark is the same in both texts. -/
lemma refresh_shift (ht : t.Encloses lo u) (slot : Mark × NextHit) :
    refresh t (lo + k) (lo + u.size) (slot.1, slot.2.shift lo) =
      ((refresh u k u.size slot).1, (refresh u k u.size slot).2.shift lo) := by
  obtain ⟨m, next⟩ := slot
  have hstale : (next.shift lo).isStale (lo + k) = next.isStale k := by
    cases next <;> simp [NextHit.shift, NextHit.isStale]
  simp only [refresh, hstale, ht.checkRange_eq (Nat.le_refl u.size), ht.find_eq m (Nat.le_refl u.size)]
  cases next.isStale k with
  | false => rfl
  | true =>
    simp only [if_true]
    cases u.checkRange k u.size with
    | error fault => rfl
    | ok _ => cases u.find m k u.size <;> rfl

/-- Which mark is nearer does not depend on the offset of the section. -/
lemma nearer_shift (b : Nat) (best : Option (Nat × Nat)) (slot : Mark × NextHit) :
    nearer (best.map fun hit => (b + hit.1, hit.2)) (slot.1, slot.2.shift b) =
      (nearer best slot).map fun hit => (b + hit.1, hit.2) := by
  obtain ⟨m, next⟩ := slot
  cases next with
  | hit pos =>
    cases best with
    | none => rfl
    | some hit =>
      simp only [nearer, NextHit.shift, Option.map_some, Nat.add_lt_add_iff_left]
      split <;> rfl
  | unknown => cases best <;> rfl
  | exhausted => cases best <;> rfl

/-- Both finders find the same mark.

**Proof sketch.** The finder refreshes what it knows of every mark and takes the nearest hit, and
both can be done before or after moving by the offset. -/
lemma find_shift (ht : t.Encloses lo u) (finder : MarkFinder) :
    (finder.shift lo).find t (lo + k) (lo + u.size) =
      (((finder.find u k u.size).1.map fun hit => (lo + hit.1, hit.2)),
        (finder.find u k u.size).2.shift lo) := by
  have hslots : (finder.slots.map fun slot => (slot.1, slot.2.shift lo)).map
        (refresh t (lo + k) (lo + u.size)) =
      (finder.slots.map (refresh u k u.size)).map fun slot => (slot.1, slot.2.shift lo) := by
    rw [List.map_map, List.map_map]
    exact List.map_congr_left fun slot _ => refresh_shift ht slot
  have hbest (slots : List (Mark × NextHit)) (best : Option (Nat × Nat)) :
      (slots.map fun slot => (slot.1, slot.2.shift lo)).foldl nearer
          (best.map fun hit => (lo + hit.1, hit.2)) =
        (slots.foldl nearer best).map fun hit => (lo + hit.1, hit.2) := by
    induction slots generalizing best with
    | nil => rfl
    | cons slot rest ih => rw [List.map_cons, List.foldl_cons, nearer_shift, ih, List.foldl_cons]
  simp only [find, shift]
  rw [hslots]
  exact Prod.ext (hbest _ none) rfl

end MarkFinder

end LexPaint
