import LexPaint.Proofs.EnclosedTexts
import LexPaint.Proofs.HeredocScans
import LexPaint.Proofs.KeywordRuns

set_option relaxedAutoImplicit false
set_option autoImplicit false

/-!
# Words with suffixes

A family of words is a base and the suffixes that may follow it. The sweep for a family takes the
longest suffix that occurs behind a base, and only then looks at whether the word ends there. No word
is lost by this. Where a shorter suffix occurs as well, the next character of the longer one stands
behind it, and since suffixes consist of word characters and hyphens, no word ends there. For the same
reason no two words of a family start at one offset.

## Main definitions

* `spelling`: the bytes of some characters.
* `Text.IsExtendedWord`: an occurrence of a word of a family that no hyphenated word goes beyond.

## Main results

* `Text.exists_charAt_behind`: behind the shorter of two strings at an offset the longer one goes on.
* `Text.IsExtendedWord.stop_eq`: a word of a family has the longest suffix that occurs.
* `Frame.tokens_ascending`: the sweep for a mark succeeds, and it goes from left to right.
* `Primitive.run_extensibleKeyword`: what is painted for a family.
-/

namespace LexPaint

/-! ### Characters and their bytes -/

/-- The bytes of some characters. -/
def spelling (cs : List Char) : Mark :=
  cs.flatMap String.utf8EncodeChar

/-- A string is spelled by its characters. -/
lemma mark_eq_spelling (s : String) : mark s = spelling s.toList := by
  unfold mark spelling
  rw [← String.utf8Encode_toList, List.utf8Encode]
  simp

/-- The bytes of two strings, one behind the other. -/
lemma mark_append (s s' : String) : mark (s ++ s') = mark s ++ mark s' := by
  simp only [mark_eq_spelling, spelling, String.toList_append, List.flatMap_append]

/-- The first character of a spelling takes as many bytes as it has. -/
lemma length_spelling_cons (c : Char) (cs : List Char) :
    (spelling (c :: cs)).length = c.utf8Size + (spelling cs).length := by
  rw [spelling, List.flatMap_cons, List.length_append, String.length_utf8EncodeChar]
  rfl

/-- A string that is not empty has a first character. -/
lemma exists_mark_eq_cons {s : String} (hs : s ≠ "") : ∃ c cs, mark s = spelling (c :: cs) := by
  cases hchars : s.toList with
  | nil => exact absurd (String.toList_eq_nil_iff.mp hchars) hs
  | cons c cs => exact ⟨c, cs, by rw [mark_eq_spelling, hchars]⟩

/-- A string that is not empty has a byte. -/
lemma mark_ne_nil {s : String} (hs : s ≠ "") : mark s ≠ [] := by
  obtain ⟨c, cs, hmark⟩ := exists_mark_eq_cons hs
  rw [hmark, ← List.length_pos_iff, length_spelling_cons]
  exact Nat.add_pos_left c.utf8Size_pos _

/-- A running maximum is no less than where it starts and than what it has seen. -/
lemma le_foldl_max (lengths : List Nat) (best : Nat) :
    best ≤ lengths.foldl max best ∧ ∀ n ∈ lengths, n ≤ lengths.foldl max best := by
  induction lengths generalizing best with
  | nil => simp
  | cons n rest ih =>
    obtain ⟨hbest, hrest⟩ := ih (max best n)
    rw [List.foldl_cons, List.forall_mem_cons]
    exact ⟨by omega, by omega, hrest⟩

namespace Text

variable {t : Text} {pos start stop : Nat} {base s : String} {suffixes : List String}

/-- Characters occur where the first one stands and the others occur behind it. -/
lemma hasAt_spelling_cons {c : Char} {cs : List Char} : t.hasAt pos (spelling (c :: cs)) = true ↔
    t.charAt pos = some c ∧ t.hasAt (pos + c.utf8Size) (spelling cs) = true := by
  rw [spelling, List.flatMap_cons, hasAt_append, Bool.and_eq_true, String.length_utf8EncodeChar,
    charAt_eq_some_iff]
  rfl

/-- A string that is not empty occurs between characters only. -/
lemma isBoundary_of_hasAt_mark (hs : s ≠ "") (h : t.hasAt pos (mark s) = true) :
    t.isBoundary pos = true := by
  obtain ⟨c, cs, hmark⟩ := exists_mark_eq_cons hs
  rw [hmark] at h
  exact isBoundary_of_charAt (hasAt_spelling_cons.mp h).1

/-- Characters that occur from a boundary on end at a boundary. -/
lemma isBoundary_add_spelling (ht : t.Valid) {cs : List Char} (hb : t.isBoundary pos = true)
    (h : t.hasAt pos (spelling cs) = true) : t.isBoundary (pos + (spelling cs).length) = true := by
  induction cs generalizing pos with
  | nil => exact hb
  | cons c cs ih =>
    obtain ⟨hc, hrest⟩ := hasAt_spelling_cons.mp h
    have hend := ih (isBoundary_add_utf8Size ht hc) hrest
    rwa [length_spelling_cons, ← Nat.add_assoc]

/-- Behind the shorter of two strings at an offset the longer one goes on.

**Proof sketch.** Induction on the shorter string. As long as it lasts, both have the character of the
text. -/
lemma exists_charAt_behind {cs ds : List Char} (hcs : t.hasAt pos (spelling cs) = true)
    (hds : t.hasAt pos (spelling ds) = true) (hlt : (spelling cs).length < (spelling ds).length) :
    ∃ c ∈ ds, t.charAt (pos + (spelling cs).length) = some c := by
  induction cs generalizing pos ds with
  | nil =>
    cases ds with
    | nil => exact absurd hlt (Nat.lt_irrefl _)
    | cons d ds => exact ⟨d, .head _, (hasAt_spelling_cons.mp hds).1⟩
  | cons c cs ih =>
    cases ds with
    | nil => exact absurd hlt (Nat.not_lt_zero _)
    | cons d ds =>
      obtain ⟨hc, hcs⟩ := hasAt_spelling_cons.mp hcs
      obtain ⟨hd, hds⟩ := hasAt_spelling_cons.mp hds
      obtain rfl : c = d := Option.some.inj (hc.symm.trans hd)
      rw [length_spelling_cons, length_spelling_cons] at hlt
      obtain ⟨c', hmem, hc'⟩ := ih hcs hds (Nat.lt_of_add_lt_add_left hlt)
      refine ⟨c', .tail _ hmem, ?_⟩
      rwa [length_spelling_cons, ← Nat.add_assoc]

/-! ### The longest suffix -/

/-- No suffix that occurs is longer than the longest one. -/
lemma le_longestSuffix {suffixes : List Mark} {m : Mark} (hm : m ∈ suffixes)
    (h : t.hasAt pos m = true) : m.length ≤ Frame.longestSuffix t pos suffixes :=
  (le_foldl_max _ 0).2 _ (List.mem_map_of_mem (List.mem_filter.mpr ⟨hm, h⟩))

/-- A suffix behind which no hyphenated word goes on is the longest one that occurs.

**Proof sketch.** If a longer suffix occurred, its next character would stand behind the shorter one
(`exists_charAt_behind`). It belongs to a hyphenated word, and none goes on there. -/
lemma longestSuffix_eq (hsuffixes : ∀ suffix ∈ suffixes, ∀ c ∈ suffix.toList,
      Frame.isHyphenated c = true) {suffix : String} (hmem : suffix ∈ "" :: suffixes)
    (h : t.hasAt pos (mark suffix) = true)
    (hbehind : ∀ c, t.charAt (pos + (mark suffix).length) = some c → Frame.isHyphenated c = false) :
    Frame.longestSuffix t pos (suffixes.map mark) = (mark suffix).length := by
  have hle : (mark suffix).length ≤ Frame.longestSuffix t pos (suffixes.map mark) := by
    rcases List.mem_cons.mp hmem with rfl | hmem
    · exact Nat.zero_le _
    · exact le_longestSuffix (List.mem_map_of_mem hmem) h
  refine (Nat.eq_or_lt_of_le hle).elim Eq.symm fun hlt => ?_
  rcases Frame.longestSuffix_eq_zero_or t pos (suffixes.map mark) with hzero | ⟨m, hm, hat, hlen⟩
  · omega
  · -- the next character of the longer suffix stands behind this one
    obtain ⟨longer, hlonger, rfl⟩ := List.mem_map.mp hm
    rw [hlen] at hlt
    rw [mark_eq_spelling] at h hbehind hlt hat
    rw [mark_eq_spelling] at hlt
    obtain ⟨c, hc, hnext⟩ := exists_charAt_behind h hat hlt
    exact absurd ((hbehind c hnext).symm.trans (hsuffixes longer hlonger c hc)) Bool.false_ne_true

/-! ### Words of a family -/

/-- The base of a family occurs at an offset, alone or with one of the suffixes. The character in front
belongs to no hyphenated word and is no selector mark, and the one behind belongs to no hyphenated word
either. -/
structure IsExtendedWord (t : Text) (base : String) (suffixes : List String) (start stop : Nat) :
    Prop where
  spelled : ∃ suffix ∈ "" :: suffixes,
    t.hasAt start (mark (base ++ suffix)) = true ∧ stop = start + (mark (base ++ suffix)).length
  before : ∀ c, t.charBefore start = some c → Frame.isHyphenated c = false ∧ c ≠ '.' ∧ c ≠ '#'
  behind : ∀ c, t.charAt stop = some c → Frame.isHyphenated c = false

/-- A base with a suffix occurs where the base does and the suffix behind it. -/
lemma hasAt_mark_append {suffix : String} : t.hasAt start (mark (base ++ suffix)) = true ↔
    t.hasAt start (mark base) = true ∧
      t.hasAt (start + (mark base).length) (mark suffix) = true := by
  rw [mark_append, hasAt_append, Bool.and_eq_true]

/-- A word of a family starts with the base. -/
lemma IsExtendedWord.base_at (h : t.IsExtendedWord base suffixes start stop) :
    t.hasAt start (mark base) = true := by
  obtain ⟨suffix, -, hat, -⟩ := h.spelled
  exact (hasAt_mark_append.mp hat).1

/-- A word of a family is not empty, and it lies in the text. -/
lemma IsExtendedWord.fits (hbase : base ≠ "") (h : t.IsExtendedWord base suffixes start stop) :
    start < stop ∧ stop ≤ t.size := by
  obtain ⟨suffix, -, hat, rfl⟩ := h.spelled
  have hne : mark (base ++ suffix) ≠ [] := by
    rw [mark_append]
    exact List.append_ne_nil_of_left_ne_nil (mark_ne_nil hbase) _
  exact ⟨Nat.lt_add_of_pos_right (List.length_pos_iff.mpr hne), le_size_of_hasAt hat hne⟩

/-- A word of a family has the longest suffix that occurs behind its base. -/
lemma IsExtendedWord.stop_eq (hsuffixes : ∀ suffix ∈ suffixes, ∀ c ∈ suffix.toList,
      Frame.isHyphenated c = true) (h : t.IsExtendedWord base suffixes start stop) :
    stop = start + (mark base).length +
      Frame.longestSuffix t (start + (mark base).length) (suffixes.map mark) := by
  obtain ⟨⟨suffix, hmem, hat, rfl⟩, -, hbehind⟩ := h
  rw [mark_append, List.length_append, ← Nat.add_assoc] at hbehind ⊢
  rw [longestSuffix_eq hsuffixes hmem (hasAt_mark_append.mp hat).2 hbehind]

/-- What goes from a base up to the end of the longest suffix behind it is spelled like a word of the
family. -/
lemma exists_spelled (h : t.hasAt start (mark base) = true)
    (hstop : stop = start + (mark base).length +
      Frame.longestSuffix t (start + (mark base).length) (suffixes.map mark)) :
    ∃ suffix ∈ "" :: suffixes,
      t.hasAt start (mark (base ++ suffix)) = true ∧
        stop = start + (mark (base ++ suffix)).length := by
  rcases Frame.longestSuffix_eq_zero_or t (start + (mark base).length) (suffixes.map mark) with
    hzero | ⟨m, hm, hat, hlen⟩
  · rw [hzero] at hstop
    exact ⟨"", .head _, by rwa [String.append_empty], by rwa [String.append_empty]⟩
  · obtain ⟨suffix, hsuffix, rfl⟩ := List.mem_map.mp hm
    refine ⟨suffix, .tail _ hsuffix, hasAt_mark_append.mpr ⟨h, hat⟩, ?_⟩
    rw [hstop, hlen, mark_append, List.length_append, Nat.add_assoc]

end Text

/-! ### Tokens of a family -/

namespace Frame

variable {f : Frame} {l : Layout} {condition : Condition} {needle : Mark} {tokenEnd : TokenEnd}
variable {base : String} {suffixes : List String} {start stop : Nat}

/-- Behind a base that ends at a boundary, the end of a word is defined. -/
lemma extendedEnd_eq_ok {base : Mark} (suffixes : List Mark)
    (hb : f.text.isBoundary (start + base.length) = true) :
    f.extendedEnd base suffixes start =
      .ok (if (f.text.charBefore start).any (fun c => isHyphenated c || c == '.' || c == '#') then none
        else if (f.text.charAt (start + base.length +
          longestSuffix f.text (start + base.length) suffixes)).any isHyphenated then none
        else some (start + base.length + longestSuffix f.text (start + base.length) suffixes)) := by
  unfold extendedEnd
  dsimp only
  rw [Text.checkRange_eq_ok (Text.le_size_of_isBoundary hb) hb (Text.isBoundary_size _)]
  split <;> rfl

/-- Where a word ends: behind the longest suffix, if no selector mark and no part of a hyphenated word
stands in front of it and none of the latter behind it.

**Proof sketch.** The program looks at the characters on either side, and tests on an optional
character say the same as the statement. -/
lemma extendedEnd_eq_some_iff {base : Mark} {suffixes : List Mark}
    (hb : f.text.isBoundary (start + base.length) = true) :
    f.extendedEnd base suffixes start = .ok (some stop) ↔
      (∀ c, f.text.charBefore start = some c → isHyphenated c = false ∧ c ≠ '.' ∧ c ≠ '#') ∧
        stop = start + base.length + longestSuffix f.text (start + base.length) suffixes ∧
        ∀ c, f.text.charAt stop = some c → isHyphenated c = false := by
  have hbefore : (f.text.charBefore start).any (fun c => isHyphenated c || c == '.' || c == '#') =
      false ↔ ∀ c, f.text.charBefore start = some c →
        isHyphenated c = false ∧ c ≠ '.' ∧ c ≠ '#' := by
    cases f.text.charBefore start <;> simp [and_assoc]
  have hbehind (i : Nat) : (f.text.charAt i).any isHyphenated = false ↔
      ∀ c, f.text.charAt i = some c → isHyphenated c = false := by
    cases f.text.charAt i <;> simp
  rw [extendedEnd_eq_ok suffixes hb, ← hbefore, ← hbehind, Except.ok.injEq]
  constructor
  · intro h
    split at h
    · cases h
    · rename_i hfront
      split at h
      · cases h
      · rename_i hback
        obtain rfl := Option.some.inj h
        exact ⟨by simpa using hfront, rfl, by simpa using hback⟩
  · rintro ⟨hfront, rfl, hback⟩
    rw [hfront, hback]
    rfl

/-- A base that is not empty ends at a boundary. -/
lemma isBoundary_behind_base (hf : f.WellFormed) (hbase : base ≠ "")
    (h : f.text.hasAt start (mark base) = true) :
    f.text.isBoundary (start + (mark base).length) = true := by
  have hb := Text.isBoundary_of_hasAt_mark hbase h
  rw [mark_eq_spelling] at h ⊢
  exact Text.isBoundary_add_spelling hf.valid hb h

/-- The tokens of a family are its words outside literals.

**Proof sketch.** The end that the program computes is that of the longest suffix, and so is the end
of a word of the family (`IsExtendedWord.stop_eq`). -/
lemma isToken_extendedEnd_iff (hf : f.WellFormed) (hbase : base ≠ "")
    (hsuffixes : ∀ suffix ∈ suffixes, ∀ c ∈ suffix.toList, isHyphenated c = true) :
    f.IsToken l (mark base) (f.extendedEnd (mark base) (suffixes.map mark)) (start, stop) ↔
      f.text.IsExtendedWord base suffixes start stop ∧ l.inLiteral start = false := by
  constructor
  · rintro ⟨hat, hend, hout⟩
    obtain ⟨hbefore, hstop, hbehind⟩ :=
      (extendedEnd_eq_some_iff (isBoundary_behind_base hf hbase hat)).mp hend
    exact ⟨⟨Text.exists_spelled hat hstop, hbefore, hbehind⟩, hout⟩
  · rintro ⟨hword, hout⟩
    have hb := isBoundary_behind_base hf hbase hword.base_at
    exact ⟨hword.base_at, (extendedEnd_eq_some_iff hb).mpr
      ⟨hword.before, hword.stop_eq hsuffixes, hword.behind⟩, hout⟩

/-- The tokens found so far start one behind the other, in front of an offset between characters. -/
structure Ascending (t : Text) (pos : Nat) (found : List (Nat × Nat)) : Prop where
  boundary : t.isBoundary pos = true
  sorted : found.Pairwise fun token token' => token.1 < token'.1
  passed : ∀ token ∈ found, token.1 < pos

namespace Ascending

variable {t : Text} {pos next : Nat} {found : List (Nat × Nat)}

/-- Tokens stay in order when the scan goes on. -/
lemma skip (h : Ascending t pos found) (hle : pos ≤ next) (hb : t.isBoundary next = true) :
    Ascending t next found :=
  ⟨hb, h.sorted, fun token htoken => Nat.lt_of_lt_of_le (h.passed token htoken) hle⟩

/-- A token behind those found so far is in order with them. -/
lemma push (h : Ascending t pos found) (hle : pos ≤ start) (hlt : start < next)
    (hb : t.isBoundary next = true) : Ascending t next (found ++ [(start, stop)]) := by
  refine ⟨hb, List.pairwise_append.mpr ⟨h.sorted, List.pairwise_singleton _ _, ?_⟩, ?_⟩
  · intro token htoken token' htoken'
    rw [List.mem_singleton.mp htoken']
    exact Nat.lt_of_lt_of_le (h.passed token htoken) hle
  · intro token htoken
    rcases List.mem_append.mp htoken with htoken | htoken
    · exact Nat.lt_of_lt_of_le (h.passed token htoken) (by omega)
    · rwa [List.mem_singleton.mp htoken]

end Ascending

section Sweep

variable (hf : f.WellFormed) (hneedle : needle ≠ [])
  (hstarts : ∀ i, f.text.hasAt i needle = true → f.text.isBoundary i = true)
  (hend : ∀ i, f.text.hasAt i needle = true → Ensures (tokenEnd i) fun _ => True)
  (haccepts : ∀ i, f.text.hasAt i needle = true → Ensures (f.accepts i condition) fun _ => True)
include hf hneedle hstarts hend haccepts

/-- One step of the sweep adds one token at most, and the sweep goes on behind its first character.

**Proof sketch.** The scan looks for the mark from a boundary on, so it can do so. Behind the first
character of the mark, where it goes on, there is a boundary again. -/
lemma Ascending.step {pos : Nat} {harvest : Sweep.Harvest (Nat × Nat)}
    (h : Ascending f.text pos harvest.items.toList) :
    Ensures (f.tokenStep l condition needle tokenEnd f.text.size pos ())
      (Sweep.Move.Keeps f.text.size (fun pos _ h => Ascending f.text pos h.items.toList) harvest) := by
  unfold tokenStep
  refine .bind (Text.checkRange_ensures (Text.le_size_of_isBoundary h.boundary) h.boundary
    (Text.isBoundary_size _)) fun _ _ => ?_
  split
  · exact .pure trivial
  · rename_i start hstart
    obtain ⟨hle, -, hat⟩ := Text.find_bounds hstart
    obtain ⟨hadvance, hnext, -⟩ := next_of_hasAt hf hneedle hstarts hat
    have hfits := Text.le_size_of_isBoundary hnext
    have hskip : (Sweep.Move.go .nothing (f.text.nextBoundary start) ()).Keeps f.text.size
        (fun pos _ h => Ascending f.text pos h.items.toList) harvest :=
      ⟨hfits, h.skip (by omega) hnext⟩
    refine .bind (hend start hat) fun result _ => ?_
    cases result with
    | none => exact .pure hskip
    | some tokenStop =>
      refine .ite (fun _ => .pure hskip) fun _ => .bind (haccepts start hat) fun accepted _ => ?_
      refine .ite (fun _ => .pure ⟨hfits, ?_⟩) fun _ => .pure hskip
      dsimp only
      rw [Sweep.Harvest.toList_add]
      exact h.push hle hadvance hnext

/-- **The sweep for a mark succeeds, and it goes from left to right**, where the mark occurs between
characters only and the end of a token and the verdict of the dialect are defined at its occurrences. -/
theorem tokens_ascending :
    Ensures (Sweep.collect (f.tokenStep l condition needle tokenEnd f.text.size) f.text.size 0 ())
      fun h => h.items.toList.Pairwise fun token token' => token.1 < token'.1 := by
  have hstart : Ascending f.text 0 (Sweep.Harvest.empty : Sweep.Harvest (Nat × Nat)).items.toList :=
    ⟨Text.isBoundary_zero _, by simp [Sweep.Harvest.empty], by simp [Sweep.Harvest.empty]⟩
  exact Sweep.collect_ensures (I := fun pos _ h => Ascending f.text pos h.items.toList)
    (fun _ _ _ h => h.step hf hneedle hstarts hend haccepts) hstart fun _ _ _ h => h.sorted

end Sweep

variable {t : Text} {dialect : Dialect}

/-- The sweep for a family of a document succeeds. It finds the words of the family that start outside
literals, from left to right.

**Proof sketch.** The sweep for a mark succeeds and finds the tokens in order (`tokens_ascending`).
Every token of a family is found, since no two start at one offset and none is hidden by another. -/
lemma collect_extendedEnd (ht : t.Valid) (hbase : base ≠ "")
    (hsuffixes : ∀ suffix ∈ suffixes, ∀ c ∈ suffix.toList, isHyphenated c = true)
    (haccepts : ∀ pos, dialect.accepts t pos condition = .ok true) :
    Ensures (Sweep.collect ((document t dialect).tokenStep l condition (mark base)
        ((document t dialect).extendedEnd (mark base) (suffixes.map mark)) t.size) t.size 0 ())
      fun h => h.items.toList.Pairwise (fun token token' => token.1 < token'.1) ∧
        ∀ start stop, (start, stop) ∈ h.items.toList ↔
          t.IsExtendedWord base suffixes start stop ∧ l.inLiteral start = false := by
  have hf := wellFormed_document ht dialect
  have hneedle := mark_ne_nil hbase
  have hstarts (i : Nat) (hat : t.hasAt i (mark base) = true) : t.isBoundary i = true :=
    Text.isBoundary_of_hasAt_mark hbase hat
  have haccepted (i : Nat) : (document t dialect).accepts i condition = .ok true := haccepts i
  obtain ⟨harvest, hharvest, hsorted⟩ := tokens_ascending (l := l) hf hneedle hstarts
    (fun i hat => ⟨_, extendedEnd_eq_ok (suffixes.map mark) (isBoundary_behind_base hf hbase hat),
      trivial⟩) fun i _ => ⟨_, haccepted i, trivial⟩
  refine ⟨harvest, hharvest, hsorted, fun start stop => ?_⟩
  rw [Array.mem_toList_iff, tokens_found hf hneedle hstarts (fun i => by simp [haccepted]) hharvest]
  exact isToken_extendedEnd_iff hf hbase hsuffixes

end Frame

/-! ### Painting a family -/

/-- What lies in the document is painted as a whole. -/
lemma Scene.document_paint_eq {t : Text} {start stop : Nat} (hlt : start < stop) (hle : stop ≤ t.size)
    (canvas : Buffer) (style : Style) :
    (document t).paint canvas start stop style = canvas.paint start (stop - start) style := by
  unfold paint document
  dsimp only
  rw [Nat.max_zero, Nat.min_eq_left hle, if_pos hlt]

/-- The tokens of a sweep over the document are painted one after another.

**Proof sketch.** The range in which tokens are looked for is the whole document, and none of them
has to be cut. -/
lemma Pass.paintOccurrences_document {t : Text} {dialect : Dialect} {l : Layout}
    {condition : Condition} {needle : Mark} {tokenEnd : Frame.TokenEnd} (hneedle : needle ≠ [])
    {harvest : Sweep.Harvest (Nat × Nat)}
    (h : Sweep.collect ((Frame.document t dialect).tokenStep l condition needle tokenEnd t.size)
      t.size 0 () = .ok harvest)
    (hfits : ∀ token ∈ harvest.items.toList, token.1 < token.2 ∧ token.2 ≤ t.size) (style : Style)
    (canvas : Buffer) :
    paintOccurrences (.document t) (.document t dialect) l condition needle tokenEnd style canvas =
      .ok (harvest.items.toList.foldl
        (fun canvas token => canvas.paint token.1 (token.2 - token.1) style) canvas) := by
  have hrange : (Scene.document t).tokenRange (.document t dialect) = (0, t.size) :=
    (Frame.spans_document t dialect).tokenRange_document
  unfold paintOccurrences paintTokens
  rw [if_neg (by simpa using hneedle), hrange]
  dsimp only
  rw [h, ← List.foldl_ext _ _ _ fun canvas token htoken =>
    Scene.document_paint_eq (hfits token htoken).1 (hfits token htoken).2 canvas style]
  rw [Array.foldl_toList]
  rfl

namespace Primitive

/-- **The longest suffix loses no word.** Take a valid text, a base that is not empty and suffixes of word
characters and hyphens, and let the dialect accept every candidate. Over the whole document the
primitive for the family succeeds. It paints, from left to right, the words of the family that start
outside literals and nothing else, and at no offset two of them start.

**Proof sketch.** The sweep finds the words of the family (`Frame.collect_extendedEnd`) and each is
painted as a whole. Two words at one offset have the longest suffix that occurs there, so they end
together. -/
theorem run_extensibleKeyword {t : Text} {base : String} {suffixes : List String}
    {dialect : Dialect} {p : Pass} (ht : t.Valid) (hbase : base ≠ "")
    (hsuffixes : ∀ suffix ∈ suffixes, ∀ c ∈ suffix.toList, Frame.isHyphenated c = true)
    (haccepts : ∀ pos, dialect.accepts t pos p.condition = .ok true) (style : Style) :
    ∃ tokens : List (Nat × Nat),
      run (.document t) (.extensibleKeyword (mark base) (suffixes.map mark) style)
          (.document t dialect) p =
        .ok { p with
          canvas := tokens.foldl
            (fun canvas token => canvas.paint token.1 (token.2 - token.1) style) p.canvas
          condition := .unconditional } ∧
      tokens.Pairwise (fun token token' => token.1 < token'.1) ∧
      (∀ start stop, (start, stop) ∈ tokens ↔
        t.IsExtendedWord base suffixes start stop ∧ p.layout.inLiteral start = false) ∧
      ∀ start stop stop', t.IsExtendedWord base suffixes start stop →
        t.IsExtendedWord base suffixes start stop' → stop = stop' := by
  obtain ⟨harvest, hharvest, hsorted, hmem⟩ :=
    Frame.collect_extendedEnd (l := p.layout) ht hbase hsuffixes haccepts
  refine ⟨harvest.items.toList, ?_, hsorted, hmem, fun start stop stop' h h' =>
    (h.stop_eq hsuffixes).trans (h'.stop_eq hsuffixes).symm⟩
  have hpaint := Pass.paintOccurrences_document (mark_ne_nil hbase) hharvest
    (fun token htoken => ((hmem token.1 token.2).mp htoken).1.fits hbase) style p.canvas
  simp only [run, Pass.paintExtensible]
  rw [hpaint]
  rfl

/-- One suffix is the start of another; a longer word, a selector mark, a string and a letter beyond ASCII
keep further bases from counting. -/
theorem run_extensibleKeyword_nested :
    ∃ (t : Text) (p q : Pass) (tokens : List (Nat × Nat)),
      t = Text.ofString "border-top-left:0 border-topper .border \"border\" border-topé border-top" ∧
      run (.document t) (.quotes true) (.document t .css) ⟨.new t, .empty, .empty, .unconditional, none⟩ =
        .ok p ∧
      run (.document t) (.extensibleKeyword (mark "border") (["-top", "-top-left"].map mark) .keyword)
        (.document t .css) p = .ok q ∧
      q.canvas.runs.filter (fun run => run.style == .keyword) =
        [⟨0, 15, .keyword⟩, ⟨62, 72, .keyword⟩] ∧
      q = { p with
        canvas := tokens.foldl
          (fun canvas token => canvas.paint token.1 (token.2 - token.1) .keyword) p.canvas
        condition := .unconditional } ∧
      tokens.Pairwise (fun token token' => token.1 < token'.1) ∧
      (∀ start stop, (start, stop) ∈ tokens ↔
        t.IsExtendedWord "border" ["-top", "-top-left"] start stop ∧
          p.layout.inLiteral start = false) ∧
      ∀ start stop stop', t.IsExtendedWord "border" ["-top", "-top-left"] start stop →
        t.IsExtendedWord "border" ["-top", "-top-left"] start stop' → stop = stop' := by
  obtain ⟨t, ht⟩ : ∃ t, t =
      Text.ofString "border-top-left:0 border-topper .border \"border\" border-topé border-top" :=
    ⟨_, rfl⟩
  have hrun : (do
      let p ← run (.document t) (.quotes true) (.document t .css)
        ⟨.new t, .empty, .empty, .unconditional, none⟩
      let q ← run (.document t)
        (.extensibleKeyword (mark "border") (["-top", "-top-left"].map mark) .keyword)
        (.document t .css) p
      demand (q.canvas.runs.filter (fun run : StyleRun => run.style == Style.keyword) =
        ([⟨0, 15, .keyword⟩, ⟨62, 72, .keyword⟩] : List StyleRun)) .outOfRange) = .ok () := by
    rw [ht]
    decide +kernel
  obtain ⟨p, hp, hrun⟩ := bind_eq_ok.mp hrun
  obtain ⟨q, hq, hrun⟩ := bind_eq_ok.mp hrun
  have hbase : "border" ≠ "" := by decide
  have hall : ["-top", "-top-left"].all (fun suffix => suffix.toList.all Frame.isHyphenated) = true := by
    decide +kernel
  have hsuffixes : ∀ suffix ∈ ["-top", "-top-left"], ∀ c ∈ suffix.toList,
      Frame.isHyphenated c = true :=
    fun suffix hmem => List.all_eq_true.mp (List.all_eq_true.mp hall suffix hmem)
  have haccepts (pos : Nat) : Dialect.css.accepts t pos p.condition = .ok true := rfl
  obtain ⟨tokens, hpainted, hsorted, hmem, hends⟩ :=
    run_extensibleKeyword (ht ▸ Text.valid_ofString _) hbase hsuffixes haccepts .keyword
  exact ⟨t, p, q, tokens, ht, hp, hq, of_decide_eq_true (demand_eq_ok_iff.mp hrun),
    Except.ok.inj (hq.symm.trans hpainted), hsorted, hmem, hends⟩

-- the families of CSS are of this kind
example : Profile.cssFamilies.all (fun family =>
    family.1 != "" && family.2.all (fun suffix => suffix.toList.all Frame.isHyphenated)) = true := by
  decide +kernel

end Primitive

end LexPaint
