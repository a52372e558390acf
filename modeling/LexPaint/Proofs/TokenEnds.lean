import LexPaint.Proofs.LiteralEnds
import LexPaint.Proofs.TokenScans

set_option relaxedAutoImplicit false
set_option autoImplicit false

/-!
# Where tokens and markup end

Not only literals are painted. Tokens, the parts of a tag and the marks around an embedded section are
ranges of their own, and none of them cuts a character: each begins with an ASCII mark or at the start
of a character, and ends behind an ASCII byte, before a character, or with a range that already ends
between characters.

## Main definitions

* `Text.WholeRange`: a range whose ends lie between characters.
* `Frame.AcceptsWhole`: a scan that accepts whole ranges only.

## Main results

* `Frame.tokenStep_whole`, `Frame.variableStep_whole`, `Frame.markStep_whole`: the scans for words,
  names and single bytes.
* `Frame.tags_whole`, `Frame.regions_whole`: tags and embedded sections.
-/

namespace LexPaint

/-- A range whose ends lie between characters. -/
structure Text.WholeRange (t : Text) (lo hi : Nat) : Prop where
  start : t.isBoundary lo = true
  stop : t.isBoundary hi = true

/-- A literal that cuts no character is a whole range. -/
lemma Interval.Clean.wholeRange {t : Text} {iv : Interval} (h : iv.Clean t) :
    t.WholeRange iv.start iv.stop :=
  ⟨h.startBoundary, h.stopBoundary⟩

/-- A run of ASCII bytes from a boundary on ends at a boundary.

**Proof sketch.** The run is empty, or its last byte is ASCII and the next character starts behind
it. -/
lemma Text.isBoundary_skipBytes {t : Text} (ht : t.Valid) {p : UInt8 → Bool}
    (hp : ∀ b, p b = true → b < 0x80) {pos hi : Nat} (hpos : t.isBoundary pos = true)
    (hhi : t.isBoundary hi = true) : t.isBoundary (t.skipBytes p pos hi) = true := by
  have hle := le_skipBytes t p pos hi
  rcases Nat.eq_or_lt_of_le hle with heq | hlt
  · rwa [← heq]
  · have hstop := skipBytes_le t p pos hi
    have hlast := (lt_skipBytes_iff (p := p) (le_size_of_isBoundary hhi)
      (show pos ≤ t.skipBytes p pos hi - 1 by omega) (by omega)).mp (by omega) _ (by omega)
      (Nat.le_refl _)
    obtain ⟨b, hb, hpb⟩ := byteIs_iff.mp hlast
    have hsucc := isBoundary_succ_of_ascii ht hb (hp b hpb)
    rwa [Nat.sub_add_cancel (by omega)] at hsucc

namespace Frame

variable {f : Frame} {l : Layout}

/-! ### Tokens -/

/-- The tokens that the steps of a scan accept are whole ranges, as long as the scan ends between
characters. -/
def AcceptsWhole (f : Frame) (step : Nat → Nat → Unit → Checked (Sweep.Move Unit (Nat × Nat))) :
    Prop :=
  ∀ pos stop verdict next u, f.text.isBoundary stop = true →
    step stop pos () = .ok (.go verdict next u) →
    ∀ token, verdict = .accepted token → f.text.WholeRange token.1 token.2

/-- The end of a token lies between characters wherever its mark occurs. -/
def TokenEnd.Whole (f : Frame) (needle : Mark) (tokenEnd : TokenEnd) : Prop :=
  ∀ start stop, f.text.hasAt start needle = true → tokenEnd start = .ok (some stop) →
    f.text.isBoundary stop = true

/-- A word ends behind its mark, between characters. -/
lemma wordEnd_whole (hf : f.WellFormed) {word : Mark} (hw : word.IsPlain) (wholeWord : Bool)
    (notAfter : List Char) : TokenEnd.Whole f word (f.wordEnd word wholeWord notAfter) := by
  intro start stop hat h
  have h := Except.ok.inj h
  split at h
  · obtain rfl := Option.some.inj h
    exact Text.isBoundary_add_length hf.valid hw hat
  · cases h

/-- A base word ends behind the longest suffix that fits, which is a mark as well. -/
lemma extendedEnd_whole (hf : f.WellFormed) {base : Mark} (hb : base.IsPlain) {suffixes : List Mark}
    (hs : ∀ m ∈ suffixes, m.IsPlain) : TokenEnd.Whole f base (f.extendedEnd base suffixes) := by
  intro start stop hat h
  have hbehind := Text.isBoundary_add_length hf.valid hb hat
  unfold extendedEnd at h
  split at h
  · cases h
  · obtain ⟨_, -, h⟩ := bind_eq_ok.mp h
    have h := Except.ok.inj h
    split at h
    · cases h
    · obtain rfl := Option.some.inj h
      rcases longestSuffix_eq_zero_or f.text (start + base.length) suffixes with
        hzero | ⟨m, hm, hmat, hlength⟩
      · rwa [hzero]
      · rw [hlength]
        exact Text.isBoundary_add_length hf.valid (hs m hm) hmat

/-- The scan for a mark accepts whole ranges: a mark is found between characters, and the token ends
there. -/
lemma tokenStep_whole {condition : Condition} {needle : Mark} (hn : needle.IsPlain)
    {tokenEnd : TokenEnd} (hend : TokenEnd.Whole f needle tokenEnd) :
    f.AcceptsWhole (f.tokenStep l condition needle tokenEnd) := by
  intro pos stop verdict next u _ h token htoken
  subst htoken
  obtain ⟨_, -, h⟩ := bind_eq_ok.mp h
  split at h
  · cases h
  · rename_i start hstart
    obtain ⟨-, -, hat⟩ := Text.find_bounds hstart
    dsimp only at h
    obtain ⟨tokenStop, htokenStop, h⟩ := bind_eq_ok.mp h
    split at h
    · cases h
    · split at h
      · cases h
      · obtain ⟨accepted, -, h⟩ := bind_eq_ok.mp h
        split at h
        · cases h
          exact ⟨Text.isBoundary_of_hasAt hn hat, hend _ _ hat htokenStop⟩
        · cases h

/-- So does the scan for names behind a sign.

**Proof sketch.** The name ends before the first character that ends names or with the range, and
both are boundaries. Where it would be empty, nothing is accepted. -/
lemma variableStep_whole {condition : Condition} {sign : Char} {ends exceptions : List Char} :
    f.AcceptsWhole (f.variableStep l condition sign ends exceptions) := by
  intro pos stop verdict next u hstop h token htoken
  subst htoken
  obtain ⟨_, -, h⟩ := bind_eq_ok.mp h
  split at h
  · cases h
  · rename_i start hstart
    obtain ⟨-, -, hat⟩ := Text.find_bounds hstart
    rw [mark_toString, ← Text.charAt_eq_some_iff] at hat
    dsimp only at h
    split at h
    · cases h
    · rename_i next' _
      split at h
      · cases h
      · obtain ⟨refused, -, h⟩ := bind_eq_ok.mp h
        split at h
        · cases h
        · generalize (if next' = '#' then _ else _) = nameFrom at h
          obtain ⟨_, -, h⟩ := bind_eq_ok.mp h
          split at h
          · cases h
            refine ⟨Text.isBoundary_of_charAt hat, ?_⟩
            -- the name ends before a character, or where the scan does
            generalize hname : f.text.findChar _ _ stop = found
            cases found with
            | none => exact hstop
            | some i =>
              obtain ⟨-, -, c, hc, -⟩ := Text.findChar_bounds hname
              exact Text.isBoundary_of_charAt hc
          · cases h

/-- So does the scan for single bytes, because they are ASCII. -/
lemma markStep_whole (hf : f.WellFormed) {bytes : List UInt8}
    (hbytes : ∀ b ∈ bytes, b < 0x80) : f.AcceptsWhole (f.markStep l bytes) := by
  intro pos stop verdict next u _ h token htoken
  subst htoken
  obtain ⟨_, -, h⟩ := bind_eq_ok.mp h
  split at h
  · cases h
  · rename_i start hstart
    obtain ⟨-, -, hbyte⟩ := Text.findByte_bounds hstart
    obtain ⟨b, hb, hmem⟩ := Text.byteIs_iff.mp hbyte
    have hascii := hbytes b (by simpa using hmem)
    split at h
    · cases h
    · cases h
      exact ⟨Text.isBoundary_of_ascii hb hascii, Text.isBoundary_succ_of_ascii hf.valid hb hascii⟩

/-! ### Tags -/

/-- The painted parts of a tag are whole ranges. -/
structure TagWhole (t : Text) (tag : TagFind) : Prop where
  name : t.WholeRange tag.nameStart tag.nameStop
  attributes : ∀ run ∈ tag.attributes, t.WholeRange run.1 run.2
  values : ∀ value ∈ tag.values, t.WholeRange value.1 value.2

/-- The bytes that open the name of a tag are ASCII. There are few enough bytes to look at all of
them. -/
lemma tagNameByte_ascii {b : UInt8} (h : (isNameByte b || b == 0x21 || b == 0x3F) = true) :
    b < 0x80 := by
  have hall : ∀ n : Fin 256, (isNameByte (UInt8.ofFin n) || UInt8.ofFin n == 0x21 ||
      UInt8.ofFin n == 0x3F) = true → UInt8.ofFin n < 0x80 := by
    decide +kernel
  simpa using hall b.toFin (by simpa using h)

/-- So are the bytes of names. -/
lemma isNameByte_ascii {b : UInt8} (h : isNameByte b = true) : b < 0x80 :=
  tagNameByte_ascii (by rw [h]; rfl)

/-- An attribute name begins with an ASCII byte and ends as a run of such bytes does.

**Proof sketch.** Induction along the walk through the attributes. A run is added only where a name
byte stands at its start, which is ASCII, and it ends as `isBoundary_skipBytes` says. -/
lemma attributeRuns_whole {t : Text} (ht : t.Valid) (embedded : IntervalSet) (i : Nat) {stop : Nat}
    (hstop : t.isBoundary stop = true) (values : List (Nat × Nat)) :
    ∀ run ∈ attributeRuns t embedded i stop values, t.WholeRange run.1 run.2 := by
  fun_induction attributeRuns t embedded i stop values with
  | case1 i values hlt value hhead ih => exact ih
  | case2 i values hlt hhead hname runStop ih =>
    intro run hrun
    rcases List.mem_cons.mp hrun with rfl | hrun
    · rw [Bool.and_eq_true] at hname
      obtain ⟨b, hb, hascii⟩ := Text.byteIs_iff.mp hname.1
      have hstart := Text.isBoundary_of_ascii hb (isNameByte_ascii hascii)
      exact ⟨hstart, Text.isBoundary_skipBytes ht (fun _ => isNameByte_ascii) hstart hstop⟩
    · exact ih run hrun
  | case3 i values hlt hhead hname ih => exact ih
  | case4 => simp

/-- The parts of a tag are whole ranges: its name and its attributes are runs of ASCII bytes, and its
values end where a quote or the scope does. -/
lemma tagAt_whole (hf : f.WellFormed) {start : Nat} (hopen : f.text.byteAt start = some 0x3C) :
    TagWhole f.text (f.tagAt l start) := by
  have hnameStart : f.text.isBoundary (f.tagAt l start).nameStart = true := by
    unfold tagAt
    dsimp only
    split
    · rename_i hslash
      exact Text.isBoundary_succ_of_ascii hf.valid (Text.byteIs_eq_iff.mp hslash) (by decide)
    · exact Text.isBoundary_succ_of_ascii hf.valid hopen (by decide)
  obtain ⟨hstop, hvalues⟩ := tagBody_clean hf.valid l.embedded (f.tagAt l start).nameStop
    hf.hiBoundary
  exact ⟨⟨hnameStart, Text.isBoundary_skipBytes hf.valid (fun _ => tagNameByte_ascii) hnameStart
      hf.hiBoundary⟩,
    attributeRuns_whole hf.valid _ _ hstop _, fun value hvalue => (hvalues value hvalue).wholeRange⟩

/-- The tags of a scope are painted in whole ranges.

**Proof sketch.** Each tag is accepted at an angle bracket, where `tagAt_whole` applies. -/
theorem tags_whole (hf : f.WellFormed) {harvest : Sweep.Harvest TagFind}
    (h : Sweep.collect (f.tagStep l) f.hi f.lo () = .ok harvest) :
    ∀ tag ∈ harvest.items, TagWhole f.text tag := by
  refine Sweep.forall_mem_collect (J := fun _ _ => True) ?_ trivial h
  intro pos u verdict next u' _ hgo
  obtain ⟨_, -, hgo⟩ := bind_eq_ok.mp hgo
  split at hgo
  · cases hgo
  · rename_i start hstart
    obtain ⟨-, -, hopen⟩ := Text.findByte_bounds hstart
    split at hgo
    · cases hgo
      exact ⟨trivial, by simp⟩
    · split at hgo
      · cases hgo
        refine ⟨trivial, fun a ha => ?_⟩
        cases ha
        exact tagAt_whole hf (Text.byteIs_eq_iff.mp hopen)
      · cases hgo
        exact ⟨trivial, by simp⟩

/-! ### Embedded sections -/

/-- An embedded section and the marks around it are whole ranges. -/
structure RegionWhole (t : Text) (endTag : Mark) (r : Region) : Prop where
  startTag : t.WholeRange r.tagStart r.tagStop
  endTag : ∀ closing, r.closing = some closing → t.WholeRange closing (closing + endTag.length)
  interval : t.WholeRange r.interval.start r.interval.stop

/-- The region behind a start tag is whole. Its code begins and ends between characters, because its
end is looked for in a range that was accepted.

**Proof sketch.** The range that was accepted gives boundaries at the start of the code and at its
limit. If an end tag is found in it, the code ends where that mark starts and the region behind it.
Otherwise both end at the limit. -/
lemma regionAt_whole (hf : f.WellFormed) {endTag : Mark} (hend : endTag.IsPlain) {element : Bool}
    {name : String} {embedded : IntervalSet} {tagStart tagStop code : Nat}
    (htag : f.text.WholeRange tagStart tagStop) {r : Region}
    (h : f.regionAt endTag element name embedded tagStart tagStop code = .ok r) :
    RegionWhole f.text endTag r := by
  obtain ⟨_, hrange, h⟩ := bind_eq_ok.mp h
  obtain ⟨-, hcode, hlimit⟩ := Text.isBoundary_of_checkRange hrange
  cases h
  cases hclose : f.text.find endTag code
      (((embedded.firstFrom code).map Interval.start).getD f.hi) with
  | none =>
    refine ⟨htag, by simp, ?_⟩
    cases element
    · exact ⟨htag.start, hlimit⟩
    · exact ⟨hcode, hlimit⟩
  | some closing =>
    obtain ⟨-, -, hat⟩ := Text.find_bounds hclose
    have hstart := Text.isBoundary_of_hasAt hend hat
    have hstop := Text.isBoundary_add_length hf.valid hend hat
    refine ⟨htag, fun c hc => ?_, ?_⟩
    · obtain rfl := Option.some.inj hc
      exact ⟨hstart, hstop⟩
    · cases element
      · exact ⟨htag.start, hstop⟩
      · exact ⟨hcode, hstart⟩

/-- The embedded sections of a scope are whole.

**Proof sketch.** A start tag is a plain mark, so the range that it takes up is whole, and
`regionAt_whole` does the rest for each region of the sweep. -/
theorem regions_whole (hf : f.WellFormed) {startTag endTag : Mark} (hstart : startTag.IsPlain)
    (hend : endTag.IsPlain) {element : Bool} {name : String} {embedded : IntervalSet}
    {harvest : Sweep.Harvest Region}
    (h : Sweep.collect (f.regionStep l startTag endTag element name) f.hi f.lo embedded =
      .ok harvest) :
    ∀ r ∈ harvest.items, RegionWhole f.text endTag r := by
  refine Sweep.forall_mem_collect (J := fun _ _ => True) ?_ trivial h
  intro pos embedded verdict next embedded' _ hgo
  obtain ⟨_, -, hgo⟩ := bind_eq_ok.mp hgo
  split at hgo
  · cases hgo
  · rename_i start hfound
    obtain ⟨-, -, hat⟩ := Text.find_bounds hfound
    dsimp only at hgo
    split at hgo
    · cases hgo
      exact ⟨trivial, by simp⟩
    · split at hgo
      · cases hgo
        exact ⟨trivial, by simp⟩
      · obtain ⟨r, hr, hgo⟩ := bind_eq_ok.mp hgo
        cases hgo
        refine ⟨trivial, fun a ha => ?_⟩
        cases ha
        exact regionAt_whole hf hend ⟨Text.isBoundary_of_hasAt hstart hat,
          Text.isBoundary_add_length hf.valid hstart hat⟩ hr

end Frame

end LexPaint
