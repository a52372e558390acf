import LexPaint.Buffer
import Mathlib.Tactic.Lemma

set_option relaxedAutoImplicit false
set_option autoImplicit false

/-!
# Boundaries between characters

A valid text is cut only between characters. All marks that lexing looks for are ASCII, and an
ASCII byte never belongs to a longer character, so the places where lexing cuts a text are
boundaries. This file has the facts about bytes, boundaries and characters of valid texts that the
other files go by.

## Main definitions

* `Mark.IsPlain`: a mark that is not empty and has ASCII bytes other than the newline.

## Main results

* `Text.isBoundary_iff`: the boundaries of a valid text are the lengths of its valid prefixes.
* `Text.isBoundary_of_ascii`, `Text.isBoundary_succ_of_ascii`: either end of an ASCII byte is a
  boundary.
* `Text.charAt_eq_some_iff`: a character stands where its bytes stand.
* `Text.valid_between`, `Text.isBoundary_between`: parts of a valid text.
* `Buffer.valid_insertText`, `Buffer.valid_removeText`: edits keep a text valid.
-/

namespace LexPaint

namespace Text

variable {t u : Text} {lo hi pos : Nat}

/-! ### Bytes -/

/-- An offset inside the text has a byte. -/
lemma byteAt_eq_getElem (h : pos < t.bytes.size) : t.byteAt pos = some t.bytes[pos] := by
  simp [byteAt, h]

/-- Only offsets inside the text have a byte. -/
lemma lt_size_of_byteAt {b : UInt8} (h : t.byteAt pos = some b) : pos < t.size := by
  refine Nat.lt_of_not_le fun hge => ?_
  rw [byteAt_eq_none_iff.mpr hge] at h
  cases h

/-- A test of a byte holds where there is a byte that passes it. -/
lemma byteIs_iff {p : UInt8 → Bool} :
    t.byteIs p pos = true ↔ ∃ b, t.byteAt pos = some b ∧ p b = true := by
  unfold byteIs
  cases t.byteAt pos <;> simp

/-- A test of a byte depends on the byte only. -/
lemma byteIs_congr {p : UInt8 → Bool} {pos' : Nat} (h : t.byteAt pos = u.byteAt pos') :
    t.byteIs p pos = u.byteIs p pos' := by
  rw [byteIs, byteIs, h]

/-- A test for one byte holds where that byte stands. -/
lemma byteIs_eq_iff {b : UInt8} : t.byteIs (· == b) pos = true ↔ t.byteAt pos = some b := by
  rw [byteIs_iff]
  constructor
  · rintro ⟨b', h, hb⟩
    rw [h, eq_of_beq hb]
  · intro h
    exact ⟨b, h, beq_self_eq_true b⟩

/-- The bytes of two texts, one behind the other. -/
lemma byteAt_append (i : Nat) :
    (t ++ u).byteAt i = if i < t.size then t.byteAt i else u.byteAt (i - t.size) := by
  change (t.bytes ++ u.bytes)[i]? = _
  by_cases h : i < t.size
  · have h' : i < t.bytes.size := h
    rw [if_pos h, byteAt, getElem?_pos (t.bytes ++ u.bytes) i (by simp; omega),
      getElem?_pos t.bytes i h', ByteArray.getElem_append_left h']
  · have h' : t.bytes.size ≤ i := Nat.le_of_not_lt h
    rw [if_neg h, byteAt, size]
    by_cases hu : i - t.bytes.size < u.bytes.size
    · rw [getElem?_pos (t.bytes ++ u.bytes) i (by simp; omega), getElem?_pos u.bytes _ hu,
        ByteArray.getElem_append_right h']
    · rw [getElem?_neg (t.bytes ++ u.bytes) i (by simp; omega), getElem?_neg u.bytes _ hu]

/-- The bytes of a part of a text. -/
lemma byteAt_between (i : Nat) :
    (t.between lo hi).byteAt i = if lo + i < hi then t.byteAt (lo + i) else none := by
  simp only [byteAt, between]
  by_cases h : lo + i < hi
  · rw [if_pos h]
    by_cases h' : lo + i < t.bytes.size
    · rw [getElem?_pos (t.bytes.extract lo hi) i (by simp; omega), getElem?_pos t.bytes _ h',
        ByteArray.getElem_extract]
    · rw [getElem?_neg (t.bytes.extract lo hi) i (by simp; omega), getElem?_neg t.bytes _ h']
  · rw [if_neg h, getElem?_neg (t.bytes.extract lo hi) i (by simp; omega)]

/-- Texts with the same bytes are equal. -/
lemma ext_byteAt (h : ∀ i, t.byteAt i = u.byteAt i) : t = u := by
  have hs : t.bytes.size = u.bytes.size := by
    have h1 : u.size ≤ t.size := byteAt_eq_none_iff.mp ((h t.size).symm.trans
      (byteAt_eq_none_iff.mpr (Nat.le_refl _)))
    have h2 : t.size ≤ u.size := byteAt_eq_none_iff.mp ((h u.size).trans
      (byteAt_eq_none_iff.mpr (Nat.le_refl _)))
    exact Nat.le_antisymm h2 h1
  refine Text.ext (ByteArray.ext_getElem hs fun i hi hi' => ?_)
  have := h i
  rw [byteAt_eq_getElem hi, byteAt_eq_getElem hi'] at this
  exact Option.some.inj this

/-- The length of a part of a text. -/
lemma size_between (t : Text) (lo : Nat) (h : hi ≤ t.size) : (t.between lo hi).size = hi - lo := by
  have := Buffer.size_between t lo hi
  omega

/-- A mark occurs where each of its bytes does.

**Proof sketch.** Induction on the mark, as the test goes on byte by byte. -/
lemma hasAt_iff {m : Mark} :
    t.hasAt pos m = true ↔ ∀ i (h : i < m.length), t.byteAt (pos + i) = some m[i] := by
  induction m generalizing pos with
  | nil => simp [hasAt]
  | cons b rest ih =>
    rw [hasAt, Bool.and_eq_true, ih, byteIs_eq_iff]
    constructor
    · rintro ⟨hb, hrest⟩ i hi
      cases i with
      | zero => exact hb
      | succ i =>
        have := hrest i (by simpa using hi)
        rw [show pos + (i + 1) = pos + 1 + i by omega]
        simpa using this
    · intro h
      refine ⟨h 0 (by simp), fun i hi => ?_⟩
      have := h (i + 1) (by simpa using hi)
      rw [show pos + (i + 1) = pos + 1 + i by omega] at this
      simpa using this

/-- Whether a mark occurs depends on the bytes there only. -/
lemma hasAt_congr {m : Mark} {pos' : Nat}
    (h : ∀ i, i < m.length → t.byteAt (pos + i) = u.byteAt (pos' + i)) :
    t.hasAt pos m = u.hasAt pos' m := by
  rw [Bool.eq_iff_iff, hasAt_iff, hasAt_iff]
  constructor
  · intro hm i hi
    rw [← h i hi, hm i hi]
  · intro hm i hi
    rw [h i hi, hm i hi]

/-- A mark that occurs lies in the text as a whole. -/
lemma le_size_of_hasAt {m : Mark} (h : t.hasAt pos m = true) (hm : m ≠ []) :
    pos + m.length ≤ t.size := by
  have hl : 0 < m.length := List.length_pos_iff.mpr hm
  have := lt_size_of_byteAt (hasAt_iff.mp h (m.length - 1) (by omega))
  omega

/-! ### First and further bytes of a character -/

/-- The further bytes of a character are made of six bits and a prefix that says so. -/
lemma isContinuation_of_masked (x : UInt8) : isContinuation (x &&& 0x3f ||| 0x80) = true := by
  have h : ∀ n : Fin 256, isContinuation (UInt8.ofFin n &&& 0x3f ||| 0x80) = true := by
    decide +kernel
  simpa using h x.toFin

/-- The first byte of a character continues none. -/
lemma isContinuation_of_isUTF8FirstByte {b : UInt8} (h : b.IsUTF8FirstByte) :
    isContinuation b = false := by
  have hall : ∀ n : Fin 256,
      (UInt8.ofFin n).IsUTF8FirstByte → isContinuation (UInt8.ofFin n) = false := by
    decide +kernel
  simpa using hall b.toFin (by simpa using h)

/-- An ASCII byte continues no character. -/
lemma isContinuation_of_ascii {b : UInt8} (h : b < 0x80) : isContinuation b = false := by
  have hall : ∀ n : Fin 256, UInt8.ofFin n < 0x80 → isContinuation (UInt8.ofFin n) = false := by
    decide +kernel
  simpa using hall b.toFin (by simpa using h)

/-- All bytes of a character but the first continue it.

**Proof sketch.** A character has at most four bytes, and each length has its own layout of bits. -/
lemma isContinuation_getElem_utf8EncodeChar {c : Char} {i : Nat}
    (hi : i < (String.utf8EncodeChar c).length) (h0 : 0 < i) :
    isContinuation (String.utf8EncodeChar c)[i] = true := by
  match hc : c.utf8Size, c.utf8Size_pos, c.utf8Size_le_four with
  | 1, _, _ =>
    rw [String.length_utf8EncodeChar, hc] at hi
    omega
  | 2, _, _ =>
    rw [String.length_utf8EncodeChar, hc] at hi
    obtain rfl : i = 1 := by omega
    simp only [String.utf8EncodeChar_eq_cons_cons hc]
    exact isContinuation_of_masked _
  | 3, _, _ =>
    rw [String.length_utf8EncodeChar, hc] at hi
    obtain rfl | rfl : i = 1 ∨ i = 2 := by omega
    all_goals
      simp only [String.utf8EncodeChar_eq_cons_cons_cons hc]
      exact isContinuation_of_masked _
  | 4, _, _ =>
    rw [String.length_utf8EncodeChar, hc] at hi
    obtain rfl | rfl | rfl : i = 1 ∨ i = 2 ∨ i = 3 := by omega
    all_goals
      simp only [String.utf8EncodeChar_eq_cons_cons_cons_cons hc]
      exact isContinuation_of_masked _

/-- Each byte of valid UTF-8 starts a character or continues one.

**Proof sketch.** Induction on the characters. A byte of the first one is its first byte or a
further one, and any other byte belongs to the rest. -/
lemma isUTF8FirstByte_or_isContinuation {b : ByteArray} (hb : b.IsValidUTF8) {i : Nat}
    (hi : i < b.size) : b[i].IsUTF8FirstByte ∨ isContinuation b[i] = true := by
  obtain ⟨cs, rfl⟩ := hb
  induction cs generalizing i with
  | nil => simp at hi
  | cons c rest ih =>
    have hsplit : (c :: rest).utf8Encode =
        (String.utf8EncodeChar c).toByteArray ++ rest.utf8Encode := by
      rw [List.utf8Encode_cons, List.utf8Encode_singleton]
    simp only [hsplit] at hi ⊢
    by_cases h : i < (String.utf8EncodeChar c).toByteArray.size
    · rw [ByteArray.getElem_append_left h, List.getElem_toByteArray]
      rcases Nat.eq_zero_or_pos i with h0 | h0
      · exact .inl (UInt8.isUTF8FirstByte_getElem_utf8EncodeChar.mpr h0)
      · exact .inr (isContinuation_getElem_utf8EncodeChar (by simpa using h) h0)
    · have hlt : i - (String.utf8EncodeChar c).toByteArray.size < rest.utf8Encode.size := by
        rw [ByteArray.size_append] at hi
        omega
      rw [ByteArray.getElem_append_right (by omega)]
      exact ih hlt

/-! ### Boundaries -/

/-- The boundaries of a valid text are the lengths of its valid prefixes.

**Proof sketch.** A position of a string is valid if and only if its prefix is, and also if and only
if the position is the end or a first byte stands there. The test for boundaries asks whether no
continuing byte stands there, which in valid UTF-8 is the same (`isUTF8FirstByte_or_isContinuation`). -/
theorem isBoundary_iff (ht : t.Valid) :
    t.isBoundary pos = true ↔ pos ≤ t.size ∧ (t.bytes.extract 0 pos).IsValidUTF8 := by
  have hv := String.Pos.Raw.isValid_iff_isValidUTF8_extract_zero
    (s := ⟨t.bytes, ht⟩) (p := ⟨pos⟩)
  have hf := String.Pos.Raw.isValid_iff_isUTF8FirstByte (s := ⟨t.bytes, ht⟩) (p := ⟨pos⟩)
  have hle : (⟨pos⟩ : String.Pos.Raw) ≤ String.rawEndPos ⟨t.bytes, ht⟩ ↔ pos ≤ t.size := Iff.rfl
  rw [← hle]
  refine Iff.trans ?_ hv
  rw [hf]
  simp only [isBoundary, Bool.or_eq_true, beq_iff_eq, byteIs_iff, Bool.not_eq_true']
  constructor
  · rintro ((rfl | rfl) | ⟨b, hb, hc⟩)
    · rcases Nat.eq_zero_or_pos t.size with h0 | h0
      · exact .inl (String.Pos.Raw.ext h0.symm)
      · exact .inr ⟨h0, ht.isUTF8FirstByte_getElem_zero h0⟩
    · exact .inl rfl
    · have hlt : pos < t.bytes.size := lt_size_of_byteAt hb
      rw [byteAt_eq_getElem hlt] at hb
      obtain rfl := Option.some.inj hb
      refine .inr ⟨hlt, ?_⟩
      rcases isUTF8FirstByte_or_isContinuation ht hlt with h | h
      · exact h
      · rw [h] at hc
        cases hc
  · rintro (h | ⟨hlt, h⟩)
    · exact .inl (.inr (congrArg String.Pos.Raw.byteIdx h))
    · exact .inr ⟨_, byteAt_eq_getElem hlt, isContinuation_of_isUTF8FirstByte h⟩

/-- In a valid text only the bytes that continue a character are no boundaries. -/
lemma isBoundary_iff_byteIs (ht : t.Valid) :
    t.isBoundary pos = true ↔ pos ≤ t.size ∧ t.byteIs isContinuation pos = false := by
  constructor
  · intro h
    refine ⟨le_size_of_isBoundary h, Bool.eq_false_iff.mpr fun hc => ?_⟩
    obtain ⟨b, hb, hc⟩ := byteIs_iff.mp hc
    have hlt : pos < t.bytes.size := lt_size_of_byteAt hb
    simp only [isBoundary, Bool.or_eq_true, beq_iff_eq, byteIs_iff, Bool.not_eq_true'] at h
    rcases h with (rfl | rfl) | ⟨b', hb', hc'⟩
    · rw [byteAt_eq_getElem hlt] at hb
      obtain rfl := Option.some.inj hb
      rw [isContinuation_of_isUTF8FirstByte (ht.isUTF8FirstByte_getElem_zero hlt)] at hc
      cases hc
    · exact absurd hlt (Nat.lt_irrefl _)
    · obtain rfl := Option.some.inj (hb.symm.trans hb')
      rw [hc] at hc'
      cases hc'
  · rintro ⟨hle, hc⟩
    cases hb : t.byteAt pos with
    | none =>
      rw [Nat.le_antisymm hle (byteAt_eq_none_iff.mp hb)]
      exact isBoundary_size t
    | some b =>
      simp only [isBoundary, Bool.or_eq_true, byteIs_iff]
      refine .inr ⟨b, hb, ?_⟩
      rw [byteIs, hb] at hc
      simp [hc]

/-- An ASCII byte starts a character. -/
lemma isBoundary_of_ascii {b : UInt8} (h : t.byteAt pos = some b) (hb : b < 0x80) :
    t.isBoundary pos = true := by
  simp only [isBoundary, Bool.or_eq_true, byteIs_iff]
  exact .inr ⟨b, h, by rw [isContinuation_of_ascii hb]; rfl⟩

/-! ### Characters -/

/-- The bytes from a boundary on, where they begin like a character. -/
lemma extract_eq_of_hasAt {c : Char} (h : t.hasAt pos (String.utf8EncodeChar c) = true) :
    t.bytes.extract pos (pos + c.utf8Size) = (String.utf8EncodeChar c).toByteArray := by
  have hle : pos + c.utf8Size ≤ t.bytes.size := by
    have := le_size_of_hasAt h String.utf8EncodeChar_ne_nil
    rwa [String.length_utf8EncodeChar] at this
  refine ByteArray.ext_getElem ?_ fun i hi hi' => ?_
  · simp only [ByteArray.size_extract, List.size_toByteArray, String.length_utf8EncodeChar]
    omega
  · rw [List.getElem_toByteArray, ByteArray.getElem_extract]
    have hb := hasAt_iff.mp h i (by simpa using hi')
    rw [byteAt_eq_getElem (by simp at hi'; omega)] at hb
    exact Option.some.inj hb

/-- A character stands where its bytes stand.

**Proof sketch.** Decoding a character splits the bytes into those of the character and the rest. The
other way round, the decoder gives a character back from its own bytes, and its first byte makes the
offset a boundary. -/
theorem charAt_eq_some_iff {c : Char} :
    t.charAt pos = some c ↔ t.hasAt pos (String.utf8EncodeChar c) = true := by
  constructor
  · intro h
    have hd : t.bytes.utf8DecodeChar? pos = some c := by
      unfold charAt at h
      split at h
      · exact h
      · cases h
    have hle := ByteArray.le_size_of_utf8DecodeChar?_eq_some hd
    rw [ByteArray.utf8DecodeChar?_eq_utf8DecodeChar?_extract] at hd
    have hsplit := ByteArray.eq_of_utf8DecodeChar?_eq_some hd
    refine hasAt_iff.mpr fun i hi => ?_
    have hi' : i < c.utf8Size := by rwa [String.length_utf8EncodeChar] at hi
    have hlt : i < (t.bytes.extract pos t.bytes.size).size := by
      rw [ByteArray.size_extract]
      omega
    rw [byteAt_eq_getElem (by omega : pos + i < t.bytes.size)]
    -- the bytes from the offset on are those of the character and the rest
    have hget : (t.bytes.extract pos t.bytes.size)[i] = (String.utf8EncodeChar c)[i] := by
      rw [← List.getElem_toByteArray (h := by simpa using hi)]
      have := ByteArray.getElem_append_left (a := (String.utf8EncodeChar c).toByteArray)
        (b := (t.bytes.extract pos t.bytes.size).extract c.utf8Size
          (t.bytes.extract pos t.bytes.size).size) (i := i) (h := hsplit ▸ hlt) (by simpa using hi)
      rw [← this]
      congr 1
    rw [← hget, ByteArray.getElem_extract]
  · intro h
    have h0 : 0 < (String.utf8EncodeChar c).length := by
      rw [String.length_utf8EncodeChar]
      exact c.utf8Size_pos
    have hfirst := hasAt_iff.mp h 0 h0
    have hb : t.isBoundary pos = true := by
      simp only [isBoundary, Bool.or_eq_true, byteIs_iff]
      refine .inr ⟨_, hfirst, ?_⟩
      rw [isContinuation_of_isUTF8FirstByte (UInt8.isUTF8FirstByte_getElem_utf8EncodeChar.mpr rfl)]
      rfl
    have hle : pos + c.utf8Size ≤ t.bytes.size := by
      have := le_size_of_hasAt h String.utf8EncodeChar_ne_nil
      rwa [String.length_utf8EncodeChar] at this
    rw [charAt, if_pos hb, ByteArray.utf8DecodeChar?_eq_utf8DecodeChar?_extract,
      ByteArray.extract_eq_extract_append_extract (pos + c.utf8Size) (by omega) hle,
      extract_eq_of_hasAt h]
    exact ByteArray.utf8DecodeChar?_utf8EncodeChar_append

/-- A character starts at every boundary before the end. -/
lemma exists_charAt (ht : t.Valid) (hb : t.isBoundary pos = true) (hlt : pos < t.size) :
    ∃ c, t.charAt pos = some c := by
  have hv := (String.Pos.Raw.isValid_iff_isValidUTF8_extract_zero
    (s := ⟨t.bytes, ht⟩) (p := ⟨pos⟩)).mpr ((isBoundary_iff ht).mp hb)
  have hd := String.Pos.Raw.isValid_iff_isSome_utf8DecodeChar?.mp hv
  rcases hd with hd | hd
  · have hs : pos = t.size := congrArg String.Pos.Raw.byteIdx hd
    omega
  · rw [charAt, if_pos hb]
    exact Option.isSome_iff_exists.mp hd

/-- A character starts at a boundary. -/
lemma isBoundary_of_charAt {c : Char} (h : t.charAt pos = some c) : t.isBoundary pos = true := by
  unfold charAt at h
  split at h
  · assumption
  · cases h

/-- Behind a character there is a boundary. -/
lemma isBoundary_add_utf8Size (ht : t.Valid) {c : Char} (h : t.charAt pos = some c) :
    t.isBoundary (pos + c.utf8Size) = true := by
  have hh := charAt_eq_some_iff.mp h
  have hle : pos + c.utf8Size ≤ t.size := by
    have := le_size_of_hasAt hh String.utf8EncodeChar_ne_nil
    rwa [String.length_utf8EncodeChar] at this
  refine (isBoundary_iff ht).mpr ⟨hle, ?_⟩
  rw [ByteArray.extract_eq_extract_append_extract pos (by omega) (by omega), extract_eq_of_hasAt hh]
  exact ((isBoundary_iff ht).mp (isBoundary_of_charAt h)).2.append
    Char.isValidUTF8_toByteArray_utf8EncodeChar

/-- There is no boundary inside a character.

**Proof sketch.** The bytes inside a character continue it (`isContinuation_getElem_utf8EncodeChar`). -/
lemma not_isBoundary_inside {c : Char} (h : t.charAt pos = some c) {i : Nat} (h0 : 0 < i)
    (hi : i < c.utf8Size) : t.isBoundary (pos + i) = false := by
  have hh := charAt_eq_some_iff.mp h
  have hi' : i < (String.utf8EncodeChar c).length := by rwa [String.length_utf8EncodeChar]
  have hle := le_size_of_hasAt hh String.utf8EncodeChar_ne_nil
  have hb := hasAt_iff.mp hh i hi'
  rw [Bool.eq_false_iff]
  intro hbound
  simp only [isBoundary, Bool.or_eq_true, beq_iff_eq, byteIs_iff] at hbound
  rcases hbound with (hz | hs) | ⟨b, hb', hc⟩
  · omega
  · omega
  · rw [hb] at hb'
    obtain rfl := Option.some.inj hb'
    rw [isContinuation_getElem_utf8EncodeChar hi' h0] at hc
    cases hc

/-- A character keeps clear of every later boundary. -/
lemma add_utf8Size_le {c : Char} (h : t.charAt pos = some c) (hb : t.isBoundary hi = true)
    (hlt : pos < hi) : pos + c.utf8Size ≤ hi := by
  refine Nat.le_of_not_lt fun hgt => ?_
  have := not_isBoundary_inside h (i := hi - pos) (by omega) (by omega)
  rw [Nat.add_sub_cancel' (Nat.le_of_lt hlt)] at this
  rw [this] at hb
  cases hb

/-- An ASCII byte is a character of its own.

**Proof sketch.** The first byte of a longer character is not ASCII, by the layout of its bits. -/
lemma utf8Size_eq_one {c : Char} {b : UInt8} (h : t.charAt pos = some c)
    (hb : t.byteAt pos = some b) (hlt : b < 0x80) : c.utf8Size = 1 := by
  have hh := hasAt_iff.mp (charAt_eq_some_iff.mp h) 0 (by simp [c.utf8Size_pos])
  rw [Nat.add_zero, hb] at hh
  have hfirst : (String.utf8EncodeChar c).head? = some b := by
    rw [List.head?_eq_getElem?]
    exact (List.getElem?_eq_getElem _).trans hh.symm
  match hc : c.utf8Size, c.utf8Size_pos, c.utf8Size_le_four with
  | 1, _, _ => rfl
  | 2, _, _ =>
    simp only [String.utf8EncodeChar_eq_cons_cons hc, List.head?_cons, Option.some.injEq] at hfirst
    have hall : ∀ n : Fin 256, ¬ (UInt8.ofFin n &&& 0x1f ||| 0xc0) < 0x80 := by decide +kernel
    exact absurd (hfirst ▸ hlt) (by simpa using hall (c.val >>> 6).toUInt8.toFin)
  | 3, _, _ =>
    simp only [String.utf8EncodeChar_eq_cons_cons_cons hc, List.head?_cons, Option.some.injEq] at hfirst
    have hall : ∀ n : Fin 256, ¬ (UInt8.ofFin n &&& 0x0f ||| 0xe0) < 0x80 := by decide +kernel
    exact absurd (hfirst ▸ hlt) (by simpa using hall (c.val >>> 12).toUInt8.toFin)
  | 4, _, _ =>
    simp only [String.utf8EncodeChar_eq_cons_cons_cons_cons hc, List.head?_cons,
      Option.some.injEq] at hfirst
    have hall : ∀ n : Fin 256, ¬ (UInt8.ofFin n &&& 0x07 ||| 0xf0) < 0x80 := by decide +kernel
    exact absurd (hfirst ▸ hlt) (by simpa using hall (c.val >>> 18).toUInt8.toFin)

/-- Behind an ASCII byte there is a boundary: the byte is a character of its own. -/
lemma isBoundary_succ_of_ascii (ht : t.Valid) {b : UInt8} (h : t.byteAt pos = some b)
    (hb : b < 0x80) : t.isBoundary (pos + 1) = true := by
  obtain ⟨c, hc⟩ := exists_charAt ht (isBoundary_of_ascii h hb) (lt_size_of_byteAt h)
  rw [← utf8Size_eq_one hc h hb]
  exact isBoundary_add_utf8Size ht hc

/-- At an ASCII byte the next boundary is one byte on. -/
lemma nextBoundary_of_ascii (ht : t.Valid) {b : UInt8} (h : t.byteAt pos = some b)
    (hb : b < 0x80) : t.nextBoundary pos = pos + 1 := by
  obtain ⟨c, hc⟩ := exists_charAt ht (isBoundary_of_ascii h hb) (lt_size_of_byteAt h)
  rw [nextBoundary, hc, ← utf8Size_eq_one hc h hb]

/-! ### Parts of a text -/

/-- A part that is cut out between characters is valid. -/
lemma valid_between (ht : t.Valid) (hlo : t.isBoundary lo = true) (hhi : t.isBoundary hi = true)
    (h : lo ≤ hi) : (t.between lo hi).Valid := by
  have hv {p : Nat} (hp : t.isBoundary p = true) :=
    (String.Pos.Raw.isValid_iff_isValidUTF8_extract_zero
      (s := ⟨t.bytes, ht⟩) (p := ⟨p⟩)).mpr ((isBoundary_iff ht).mp hp)
  exact (String.Pos.Raw.isValidUTF8_extract_iff (s := ⟨t.bytes, ht⟩) ⟨lo⟩ ⟨hi⟩ h
    (le_size_of_isBoundary hhi)).mpr (.inr ⟨hv hlo, hv hhi⟩)

/-- The boundaries of a part are those of the text that lie in it.

**Proof sketch.** Inside the part the bytes are the same. Its ends are boundaries of both. -/
lemma isBoundary_between (hlo : t.isBoundary lo = true) (hhi : t.isBoundary hi = true)
    (h : lo + pos ≤ hi) : (t.between lo hi).isBoundary pos = t.isBoundary (lo + pos) := by
  have hs := size_between t lo (le_size_of_isBoundary hhi)
  rcases Nat.eq_zero_or_pos pos with rfl | h0
  · rw [isBoundary_zero, Nat.add_zero, hlo]
  · rcases Nat.lt_or_ge (lo + pos) hi with hlt | hge
    · have hle := le_size_of_isBoundary hhi
      have hb : (t.between lo hi).byteAt pos = t.byteAt (lo + pos) := by
        rw [byteAt_between, if_pos hlt]
      rw [isBoundary, isBoundary, hs, byteIs_congr hb]
      have h1 : (pos == 0) = false := by simp; omega
      have h2 : (pos == hi - lo) = false := by simp; omega
      have h3 : (lo + pos == 0) = false := by simp; omega
      have h4 : (lo + pos == t.size) = false := by simp; omega
      rw [h1, h2, h3, h4]
    · obtain rfl : lo + pos = hi := by omega
      rw [hhi]
      simp [isBoundary, hs]

/-- The text of a string is valid. -/
lemma valid_ofString (s : String) : (ofString s).Valid :=
  s.isValidUTF8

/-- Valid texts can be put together. -/
lemma valid_append (ht : t.Valid) (hu : u.Valid) : (t ++ u).Valid :=
  ByteArray.IsValidUTF8.append ht hu

/-! ### Ranges -/

/-- A range between characters is accepted. -/
lemma checkRange_eq_ok (h : lo ≤ hi) (hlo : t.isBoundary lo = true)
    (hhi : t.isBoundary hi = true) : t.checkRange lo hi = .ok () := by
  have := le_size_of_isBoundary hhi
  simp [checkRange, demand, h, this, hlo, hhi, bind, Except.bind]

/-- A range that is accepted has its ends in order and between characters. -/
lemma isBoundary_of_checkRange {x : Unit} (h : t.checkRange lo hi = .ok x) :
    lo ≤ hi ∧ t.isBoundary lo = true ∧ t.isBoundary hi = true := by
  unfold checkRange at h
  cases hrange : demand (lo ≤ hi && hi ≤ t.size) .outOfRange with
  | error fault =>
    rw [hrange] at h
    cases h
  | ok _ =>
    rw [hrange] at h
    have hends := demand_eq_ok_iff.mp h
    have hrange := demand_eq_ok_iff.mp hrange
    simp only [Bool.and_eq_true, decide_eq_true_eq] at hends hrange
    exact ⟨hrange.1, hends⟩

/-- A range of bytes inside the text is accepted. -/
lemma checkBytes_eq_ok (h : lo ≤ hi) (hhi : hi ≤ t.size) : t.checkBytes lo hi = .ok () := by
  simp [checkBytes, demand, h, hhi]

/-- A part between characters can be cut out. -/
lemma slice_eq_ok (h : lo ≤ hi) (hlo : t.isBoundary lo = true) (hhi : t.isBoundary hi = true) :
    t.slice lo hi = .ok (t.between lo hi) := by
  simp [slice, checkRange_eq_ok h hlo hhi, bind, Except.bind, pure, Except.pure]

end Text

/-! ### Edits -/

namespace Buffer

/-- Inserting a valid text between characters keeps the text valid. -/
lemma valid_insertText {t u : Text} {pos : Nat} (ht : t.Valid) (hu : u.Valid)
    (hpos : t.isBoundary pos = true) : (insertText t pos u).Valid := by
  have hle := Text.le_size_of_isBoundary hpos
  have hfront := Text.valid_between ht (Text.isBoundary_zero t) hpos (Nat.zero_le pos)
  have hback := Text.valid_between ht hpos (Text.isBoundary_size t) hle
  exact Text.valid_append (Text.valid_append hfront hu) hback

/-- Removing what lies between two boundaries keeps the text valid. -/
lemma valid_removeText {t : Text} {pos stop : Nat} (ht : t.Valid)
    (hpos : t.isBoundary pos = true) (hstop : t.isBoundary stop = true) :
    (removeText t pos stop).Valid := by
  have hfront := Text.valid_between ht (Text.isBoundary_zero t) hpos (Nat.zero_le pos)
  have hback :=
    Text.valid_between ht hstop (Text.isBoundary_size t) (Text.le_size_of_isBoundary hstop)
  exact Text.valid_append hfront hback

end Buffer

/-! ### Plain marks -/

namespace Mark

/-- A mark that is not empty and consists of ASCII bytes other than the newline. -/
def IsPlain (m : Mark) : Prop :=
  m ≠ [] ∧ ∀ b ∈ m, b < 0x80 ∧ b ≠ newline

instance (m : Mark) : Decidable m.IsPlain :=
  decidable_of_iff (m ≠ [] ∧ m.all (fun b => decide (b < 0x80) && b != newline) = true)
    (by simp [IsPlain])

end Mark

namespace Text

variable {t : Text} {m : Mark} {pos : Nat}

/-- A plain mark starts at a boundary. -/
lemma isBoundary_of_hasAt (hm : m.IsPlain) (h : t.hasAt pos m = true) :
    t.isBoundary pos = true := by
  have hl : 0 < m.length := List.length_pos_iff.mpr hm.1
  exact isBoundary_of_ascii (hasAt_iff.mp h 0 hl) (hm.2 _ (List.getElem_mem hl)).1

/-- A plain mark ends at a boundary, since its last byte is ASCII. -/
lemma isBoundary_add_length (ht : t.Valid) (hm : m.IsPlain) (h : t.hasAt pos m = true) :
    t.isBoundary (pos + m.length) = true := by
  have hl : 0 < m.length := List.length_pos_iff.mpr hm.1
  have hlast := hasAt_iff.mp h (m.length - 1) (by omega)
  have := isBoundary_succ_of_ascii ht hlast (hm.2 _ (List.getElem_mem _)).1
  rwa [show pos + (m.length - 1) + 1 = pos + m.length by omega] at this

/-- A plain mark lies on one line. -/
lemma byteAt_ne_newline (hm : m.IsPlain) (h : t.hasAt pos m = true) {i : Nat} (h1 : pos ≤ i)
    (h2 : i < pos + m.length) : t.byteAt i ≠ some newline := by
  have hb := hasAt_iff.mp h (i - pos) (by omega)
  rw [Nat.add_sub_cancel' h1] at hb
  rw [hb]
  intro hn
  exact (hm.2 _ (List.getElem_mem _)).2 (Option.some.inj hn)

end Text

end LexPaint
