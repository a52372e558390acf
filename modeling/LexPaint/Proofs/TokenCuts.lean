import LexPaint.Proofs.TokenScans

set_option relaxedAutoImplicit false
set_option autoImplicit false

/-!
# Tokens keep to their lines

A token lies on one line. So where a line starts or ends, a scan for tokens can be cut in two: what
the scan finds in the whole range is what it finds before the cut and then what it finds behind it.
This is why a pass that looks for tokens in a section of full lines paints them there as a pass
over the whole document does.

## Main definitions

* `Frame.CutsAt`: a scan that can be cut at an offset.

## Main results

* `Sweep.collect_cut`: cutting a sweep in two.
* `Frame.tokenStep_cutsAt`, `Frame.variableStep_cutsAt`, `Frame.markStep_cutsAt`: the scans for
  tokens can be cut where a line starts or ends.
-/

namespace LexPaint

/-! ### Cutting a sweep -/

namespace Sweep

variable {α σ : Type}

/-- What two sweeps in turn accept and refuse. -/
def Harvest.append (h h' : Harvest α) : Harvest α :=
  ⟨h.items ++ h'.items, h.refusals + h'.refusals⟩

/-- Behind a harvest the empty one adds nothing. -/
lemma Harvest.append_empty (h : Harvest α) : h.append .empty = h := by
  simp [append, empty]

/-- What is added to the second of two harvests is added to both together. -/
lemma Harvest.append_add (h h' : Harvest α) (verdict : Verdict α) :
    h.append (h'.add verdict) = (h.append h').add verdict := by
  cases verdict with
  | nothing => rfl
  | refused => simp [append, add, Nat.add_assoc]
  | accepted item => simp [append, add]

/-- A sweep adds to the harvest that it starts with.

**Proof sketch.** Induction along the sweep. A step takes the same verdict whatever was harvested
before, and adding it to the later part is adding it to the whole. -/
lemma run_append (step : Nat → σ → Checked (Move σ α)) (hi pos : Nat) (s : σ)
    (h₀ h : Harvest α) :
    run step hi pos s (h₀.append h) = (run step hi pos s h).map fun r => (h₀.append r.1, r.2) := by
  fun_induction run step hi pos s h with
  | case1 pos s h fault hs =>
    rw [run, hs]
    rfl
  | case2 pos s h hs =>
    rw [run, hs]
    rfl
  | case3 pos s h verdict next s' hs hlt =>
    rw [run, hs]
    dsimp only
    rw [if_pos hlt]
    rfl
  | case4 pos s h verdict next s' hs hle hlt ih =>
    rw [run, hs]
    dsimp only
    rw [if_neg hle, if_pos hlt, ← Harvest.append_add, ih]
  | case5 pos s h verdict next s' hs hle hge =>
    rw [run, hs]
    dsimp only
    rw [if_neg hle, if_neg hge, ← Harvest.append_add]
    rfl

/-- A step up to `b` that a sweep up to `c` takes as well, or that ends where the sweep up to `c`
goes on as if it stood at `b`. -/
def StepsAlike (step : Nat → Nat → Unit → Checked (Move Unit α)) (J : Nat → Prop) (b c pos : Nat) :
    Prop :=
  (step b pos () = .ok .stop ∧ step c pos () = step c b () ∧
    ∀ verdict next, step c b () = .ok (.go verdict next ()) → b < next) ∨
    ∃ verdict next, step b pos () = .ok (.go verdict next ()) ∧
      step c pos () = .ok (.go verdict next ()) ∧ pos < next ∧ next ≤ b ∧ J next

/-- If all steps up to a cut are alike, a sweep is a sweep up to the cut and a sweep from it on.

**Proof sketch.** Induction on the distance to the cut. Both sweeps take the same steps until the
shorter one stops, and the longer one goes on from the cut then. -/
theorem run_cut {step : Nat → Nat → Unit → Checked (Move Unit α)} {J : Nat → Prop} {b c : Nat}
    (hbc : b ≤ c) (halike : ∀ pos, pos ≤ b → J pos → StepsAlike step J b c pos) {pos : Nat}
    (hpos : pos ≤ b) (hJ : J pos) (h : Harvest α) :
    ∃ h', run (step b) b pos () h = .ok (h', ()) ∧
      run (step c) c pos () h = run (step c) c b () h' := by
  induction hn : b - pos using Nat.strongRecOn generalizing pos h with
  | _ n ih =>
    rcases halike pos hpos hJ with ⟨hstop, hsame, hadv⟩ | ⟨verdict, next, hb, hc, hlt, hle, hJ'⟩
    · refine ⟨h, ?_, ?_⟩
      · rw [run, hstop]
      · -- the longer sweep takes the step that it would take at the cut
        rw [run, hsame]
        conv => rhs; rw [run]
        cases hs : step c b () with
        | error fault => rfl
        | ok m =>
          cases m with
          | stop => rfl
          | go verdict next u =>
            have := hadv verdict next hs
            dsimp only
            rw [if_pos this, if_pos (by omega : pos < next)]
    · obtain ⟨h', h1, h2⟩ := ih _ (by omega) hle hJ' (h.add verdict) rfl
      refine ⟨h', ?_, ?_⟩
      · rw [run, hb]
        dsimp only
        rw [if_neg (by omega), if_pos hlt]
        exact h1
      · rw [run, hc]
        dsimp only
        rw [if_neg (by omega), if_pos hlt]
        exact h2

/-- A sweep is a sweep up to the cut and a sweep from it on.

**Proof sketch.** `run_cut` cuts the sweep with what was harvested so far, here nothing. The second
half then starts with the harvest of the first one, which `run_append` moves to the front. -/
theorem collect_cut {step : Nat → Nat → Unit → Checked (Move Unit α)} {J : Nat → Prop} {a b c : Nat}
    (hab : a ≤ b) (hbc : b ≤ c) (halike : ∀ pos, pos ≤ b → J pos → StepsAlike step J b c pos)
    (hJ : J a) :
    ∃ h, collect (step b) b a () = .ok h ∧
      collect (step c) c a () = (collect (step c) c b ()).map h.append := by
  obtain ⟨h, h1, h2⟩ := run_cut hbc halike hab hJ .empty
  refine ⟨h, ?_, ?_⟩
  · rw [collect, h1]
    rfl
  · rw [collect, collect, h2, ← Harvest.append_empty h, run_append, Harvest.append_empty]
    cases run (step c) c b () .empty with
    | error fault => rfl
    | ok r => rfl

end Sweep

/-! ### Cutting a search -/

namespace Text

variable {t : Text} {pos b c i : Nat}

/-- A search for a byte can be cut: what it finds in front of the cut it finds in the whole range,
and if it finds nothing there, the search goes on from the cut. -/
lemma findByte_cut {p : UInt8 → Bool} (hpos : pos ≤ b) (hbc : b ≤ c) :
    (∀ i, t.findByte p pos b = some i → t.findByte p pos c = some i) ∧
      (t.findByte p pos b = none → t.findByte p pos c = t.findByte p b c) := by
  refine ⟨fun i hi => ?_, fun hnone => ?_⟩
  · obtain ⟨h1, h2, h3, h4⟩ := findByte_eq_some_iff.mp hi
    exact findByte_eq_some_iff.mpr ⟨h1, by omega, h3, h4⟩
  · have hbefore := findByte_eq_none_iff.mp hnone
    cases hi : t.findByte p b c with
    | none =>
      refine findByte_eq_none_iff.mpr fun j h1 h2 => ?_
      rcases Nat.lt_or_ge j b with h | h
      · exact hbefore j h1 h
      · exact findByte_eq_none_iff.mp hi j h h2
    | some i =>
      obtain ⟨h1, h2, h3, h4⟩ := findByte_eq_some_iff.mp hi
      refine findByte_eq_some_iff.mpr ⟨by omega, h2, h3, fun j hj hji => ?_⟩
      rcases Nat.lt_or_ge j b with h | h
      · exact hbefore j hj h
      · exact h4 j h hji

/-- A search for a character can be cut. -/
lemma findChar_cut {p : Char → Bool} (hpos : pos ≤ b) (hbc : b ≤ c) :
    (∀ i, t.findChar p pos b = some i → t.findChar p pos c = some i) ∧
      (t.findChar p pos b = none → t.findChar p pos c = t.findChar p b c) := by
  refine ⟨fun i hi => ?_, fun hnone => ?_⟩
  · obtain ⟨h1, h2, h3, h4⟩ := findChar_eq_some_iff.mp hi
    exact findChar_eq_some_iff.mpr ⟨h1, by omega, h3, h4⟩
  · have hbefore := findChar_eq_none_iff.mp hnone
    cases hi : t.findChar p b c with
    | none =>
      refine findChar_eq_none_iff.mpr fun j ch h1 h2 hch => ?_
      rcases Nat.lt_or_ge j b with h | h
      · exact hbefore j ch h1 h hch
      · exact findChar_eq_none_iff.mp hi j ch h h2 hch
    | some i =>
      obtain ⟨h1, h2, h3, h4⟩ := findChar_eq_some_iff.mp hi
      refine findChar_eq_some_iff.mpr ⟨by omega, h2, h3, fun j ch hj hji hch => ?_⟩
      rcases Nat.lt_or_ge j b with h | h
      · exact hbefore j ch hj h hch
      · exact h4 j ch h hji hch

/-- A search for a mark can be cut where no occurrence of the mark reaches over the cut. -/
lemma find_cut {m : Mark}
    (hm : ∀ i, t.hasAt i m = true → i < b → i + m.length ≤ b) (hpos : pos ≤ b) (hbc : b ≤ c) :
    (∀ i, t.find m pos b = some i → t.find m pos c = some i) ∧
      (t.find m pos b = none → t.find m pos c = t.find m b c) := by
  refine ⟨fun i hi => ?_, fun hnone => ?_⟩
  · obtain ⟨h1, h2, h3, h4⟩ := find_eq_some_iff.mp hi
    exact find_eq_some_iff.mpr ⟨h1, by omega, h3, h4⟩
  · have hbefore : ∀ j, pos ≤ j → j < b → t.hasAt j m = false := by
      intro j h1 h2
      rw [Bool.eq_false_iff]
      intro hat
      have := find_eq_none_iff.mp hnone j h1 (hm j hat h2)
      rw [hat] at this
      cases this
    cases hi : t.find m b c with
    | none =>
      refine find_eq_none_iff.mpr fun j h1 h2 => ?_
      rcases Nat.lt_or_ge j b with h | h
      · exact hbefore j h1 h
      · exact find_eq_none_iff.mp hi j h h2
    | some i =>
      obtain ⟨h1, h2, h3, h4⟩ := find_eq_some_iff.mp hi
      refine find_eq_some_iff.mpr ⟨by omega, h2, h3, fun j hj hji => ?_⟩
      rcases Nat.lt_or_ge j b with h | h
      · exact hbefore j hj h
      · exact h4 j h hji

end Text

namespace Frame

variable {f : Frame} {l : Layout} {pos b c : Nat}

/-! ### Cutting a scan for tokens -/

/-- The steps of a scan up to `b` and of a scan up to `c` are alike, so the latter can be cut at
`b`. -/
def CutsAt (f : Frame) (step : Nat → Nat → Unit → Checked (Sweep.Move Unit (Nat × Nat)))
    (b c : Nat) : Prop :=
  ∀ pos, f.lo ≤ pos → pos ≤ b → f.text.isBoundary pos = true →
    Sweep.StepsAlike step (fun next => f.lo ≤ next ∧ f.text.isBoundary next = true) b c pos

/-- Steps are alike if they do the same with what they find before the cut, and the longer scan goes
on from the cut if there is nothing.

**Proof sketch.** The step up to the cut stops only if it has found nothing, and then both scans
would go on from the cut. Otherwise both have found the same and take the same step, which ends on a
boundary in front of the cut or at it. -/
lemma stepsAlike_of_found {step : Nat → Nat → Unit → Checked (Sweep.Move Unit (Nat × Nat))}
    (found : Nat → Nat → Option Nat) (hlo : f.lo ≤ pos)
    (hb : Ensures (step b pos ()) (f.Advances b pos (found b pos)))
    (hc : Ensures (step c b ()) (f.Advances c b (found c b)))
    (hsome : ∀ start, found b pos = some start → step c pos () = step b pos ())
    (hnone : found b pos = none → step c pos () = step c b ()) :
    Sweep.StepsAlike step (fun next => f.lo ≤ next ∧ f.text.isBoundary next = true) b c pos := by
  obtain ⟨m, hm, hadv⟩ := hb
  cases m with
  | stop =>
    refine .inl ⟨hm, hnone hadv, fun verdict next hgo => ?_⟩
    obtain ⟨start, -, h1, h2, -⟩ := hc.elim hgo
    omega
  | go verdict next u =>
    obtain ⟨start, hstart, h1, h2, h3, h4, -⟩ := hadv
    exact .inr ⟨verdict, next, hm, (hsome start hstart).trans hm, by omega, h3, by omega, h4⟩

/-- A range whose ends are boundaries of the scope, with a cut between them. -/
structure CutRange (f : Frame) (b c : Nat) : Prop where
  lo_le : f.lo ≤ b
  ordered : b ≤ c
  stop_le : c ≤ f.hi
  cutBoundary : f.text.isBoundary b = true
  stopBoundary : f.text.isBoundary c = true
  cut : f.text.LineCut b
  ends : f.text.LineCut c ∨ c = f.hi

namespace CutRange

/-- What lies in front of the cut is a range to look for tokens in. -/
lemma before (h : f.CutRange b c) (hlo : f.lo ≤ pos) (hpos : pos ≤ b) : f.TokenRange pos b :=
  ⟨hlo, hpos, h.cutBoundary, fun _ => Nat.le_trans h.ordered h.stop_le, fun _ => .inl h.cut⟩

/-- So is what lies behind it. -/
lemma behind (h : f.CutRange b c) : f.TokenRange b c :=
  ⟨h.lo_le, h.ordered, h.stopBoundary, fun _ => h.stop_le, fun _ => h.ends⟩

end CutRange

/-- The scan for a mark can be cut where a line starts or ends, because a plain mark lies on one
line. -/
lemma tokenStep_cutsAt (hf : f.WellFormed) (condition : Condition) {needle : Mark}
    (hn : needle.IsPlain) {tokenEnd : TokenEnd} (hend : TokenEnd.Defined f needle tokenEnd)
    (hr : f.CutRange b c) : f.CutsAt (f.tokenStep l condition needle tokenEnd) b c := by
  intro pos hlo hpos hpb
  have hcut := Text.find_cut (fun i => hr.cut.add_length_le hn) hpos hr.ordered
  refine stepsAlike_of_found (fun stop pos => f.text.find needle pos stop) hlo
    (tokenStep_ensures hf condition hn hend (hr.before hlo hpos) hpb ())
    (tokenStep_ensures hf condition hn hend hr.behind hr.cutBoundary ())
    (fun start hstart => ?_) fun hnone => ?_
  · unfold tokenStep
    rw [Text.checkRange_eq_ok (Nat.le_trans hpos hr.ordered) hpb hr.stopBoundary,
      Text.checkRange_eq_ok hpos hpb hr.cutBoundary, hcut.1 start hstart, hstart]
  · unfold tokenStep
    rw [Text.checkRange_eq_ok (Nat.le_trans hpos hr.ordered) hpb hr.stopBoundary,
      Text.checkRange_eq_ok hr.ordered hr.cutBoundary hr.stopBoundary, hcut.2 hnone]

/-- So can the scan for single bytes. -/
lemma markStep_cutsAt (hf : f.WellFormed) {bytes : List UInt8}
    (hbytes : ∀ b ∈ bytes, b < 0x80 ∧ b ≠ newline)
    (hr : f.CutRange b c) : f.CutsAt (f.markStep l bytes) b c := by
  intro pos hlo hpos hpb
  have hcut := Text.findByte_cut (t := f.text) (p := bytes.contains) hpos hr.ordered
  have hb := Text.le_size_of_isBoundary hr.cutBoundary
  have hc := Text.le_size_of_isBoundary hr.stopBoundary
  refine stepsAlike_of_found (fun stop pos => f.text.findByte bytes.contains pos stop) hlo
    (markStep_ensures hf hbytes (hr.before hlo hpos) ())
    (markStep_ensures hf hbytes hr.behind ()) (fun start hstart => ?_) fun hnone => ?_
  · unfold markStep
    rw [Text.checkBytes_eq_ok (Nat.le_trans hpos hr.ordered) hc, Text.checkBytes_eq_ok hpos hb,
      hcut.1 start hstart, hstart]
  · unfold markStep
    rw [Text.checkBytes_eq_ok (Nat.le_trans hpos hr.ordered) hc, Text.checkBytes_eq_ok hr.ordered hc,
      hcut.2 hnone]

/-- Where a name behind a sign starts, when a character follows the sign. -/
def nameFrom (sign : Char) (start : Nat) (next : Char) : Nat :=
  if next = '#' then start + sign.utf8Size + 1 else start + sign.utf8Size

/-- Where a name ends that starts at an offset. -/
def nameStop (t : Text) (ends : List Char) (nameFrom stop : Nat) : Nat :=
  (t.findChar (fun c => Unicode.isBlank c || ends.contains c) nameFrom stop).getD stop

/-- A name behind a sign ends on its line: it is the same for a scan that is cut there.

**Proof sketch.** The character behind the sign is neither a newline nor the end of the text, so the
name starts before the cut or at it. A name ends at a newline at the latest, and one of the two
bytes around the cut is a newline unless the text ends there. -/
lemma nameStop_cut (ht : f.text.Valid) {sign next : Char} (hsign : sign ≠ '\n') (ends : List Char)
    (hr : f.CutRange b c) {start : Nat} (hat : f.text.charAt start = some sign)
    (hle : start + sign.utf8Size ≤ b) (hnext : f.text.charAt (start + sign.utf8Size) = some next)
    (hblank : Unicode.isBlank next = false) :
    nameFrom sign start next ≤ b ∧ f.text.isBoundary (nameFrom sign start next) = true ∧
      nameStop f.text ends (nameFrom sign start next) c =
        nameStop f.text ends (nameFrom sign start next) b := by
  have hsize := sign.utf8Size_pos
  have hnb := Text.isBoundary_add_utf8Size ht hat
  have hnewline (i : Nat) (h1 : start ≤ i) (h2 : i ≤ start + sign.utf8Size) :
      f.text.byteAt i ≠ some newline := by
    rcases Nat.lt_or_eq_of_le h2 with h2 | rfl
    · exact Text.byteAt_ne_newline_of_charAt hat hsign h1 h2
    · intro hn
      rw [Text.charAt_newline hn] at hnext
      obtain rfl := Option.some.inj hnext
      exact absurd hblank (by decide)
  -- the character behind the sign stands in front of the cut
  have hlt : start + sign.utf8Size < b := by
    refine Nat.lt_of_le_of_ne hle ?_
    rintro rfl
    rcases hr.cut with (h0 | ⟨h0, hn⟩) | (hs | hn)
    · omega
    · exact hnewline _ (by omega) (by omega) hn
    · have hh := Text.charAt_eq_some_iff.mp hnext
      have := Text.le_size_of_hasAt hh String.utf8EncodeChar_ne_nil
      rw [String.length_utf8EncodeChar] at this
      have := next.utf8Size_pos
      omega
    · exact hnewline _ (by omega) (Nat.le_refl _) hn
  have hfrom : nameFrom sign start next ≤ b ∧ start + sign.utf8Size ≤ nameFrom sign start next ∧
      f.text.isBoundary (nameFrom sign start next) = true := by
    unfold nameFrom
    split
    · rename_i hhash
      subst hhash
      exact ⟨hlt, Nat.le_succ _, Text.isBoundary_add_utf8Size ht hnext⟩
    · exact ⟨Nat.le_of_lt hlt, Nat.le_refl _, hnb⟩
  refine ⟨hfrom.1, hfrom.2.2, ?_⟩
  have hcut := Text.findChar_cut (t := f.text)
    (p := fun c => Unicode.isBlank c || ends.contains c) hfrom.1 hr.ordered
  unfold nameStop
  cases hfound : f.text.findChar (fun c => Unicode.isBlank c || ends.contains c)
      (nameFrom sign start next) b with
  | some i => rw [hcut.1 i hfound, Option.getD_some, Option.getD_some]
  | none =>
    rw [hcut.2 hfound, Option.getD_none]
    have hbefore := Text.findChar_eq_none_iff.mp hfound
    rcases hr.cut with (h0 | ⟨h0, hn⟩) | (hs | hn)
    · omega
    · -- the newline before the cut ends the name
      exfalso
      rcases Nat.lt_or_ge (start + sign.utf8Size) (b - 1) with h | h
      · have hge : nameFrom sign start next ≤ b - 1 := by
          unfold nameFrom
          split <;> omega
        have := hbefore (b - 1) '\n' hge (by omega) (Text.charAt_newline hn)
        simp [Unicode.isBlank] at this
      · exact hnewline (b - 1) (by omega) (by omega) hn
    · -- the text ends at the cut
      have hc := Text.le_size_of_isBoundary hr.stopBoundary
      have := hr.ordered
      obtain rfl : b = c := by omega
      rw [Text.findChar_eq_none_iff.mpr fun j _ h1 h2 => absurd h1 (by omega)]
      rfl
    · rcases Nat.lt_or_eq_of_le hr.ordered with h | rfl
      · rw [Text.findChar_eq_some_iff.mpr ⟨Nat.le_refl _, h,
          ⟨'\n', Text.charAt_newline hn, by simp [Unicode.isBlank]⟩,
          fun j _ h1 h2 => absurd h1 (by omega)⟩]
        rfl
      · rw [Text.findChar_eq_none_iff.mpr fun j _ h1 h2 => absurd h1 (by omega)]
        rfl

/-- So can the scan for names behind a sign.

**Proof sketch.** The sign is found by a search that can be cut. Behind it both scans read the same
character, since the cut does not stand inside of a line, and by `nameStop_cut` they find the same
end of the name. So they accept and refuse alike. -/
lemma variableStep_cutsAt (hf : f.WellFormed) (condition : Condition) {sign : Char}
    (hsign : sign ≠ '\n') (ends exceptions : List Char) (hseal : f.text.Sealed f.hi)
    (hr : f.CutRange b c) :
    f.CutsAt (f.variableStep l condition sign ends exceptions) b c := by
  intro pos hlo hpos hpb
  have hm : ∀ i, f.text.hasAt i (mark sign.toString) = true → i < b →
      i + (mark sign.toString).length ≤ b := by
    intro i hi hlt
    rw [length_mark_toString]
    rw [mark_toString, ← Text.charAt_eq_some_iff] at hi
    exact Text.add_utf8Size_le hi hr.cutBoundary hlt
  -- a sign does not reach over the cut, which stands between characters
  have hcut := Text.find_cut hm hpos hr.ordered
  refine stepsAlike_of_found (fun stop pos => f.text.find (mark sign.toString) pos stop) hlo
    (variableStep_ensures hf condition hsign ends exceptions hseal (hr.before hlo hpos) hpb ())
    (variableStep_ensures hf condition hsign ends exceptions hseal hr.behind hr.cutBoundary ())
    (fun start hstart => ?_) fun hnone => ?_
  · unfold variableStep
    rw [Text.checkRange_eq_ok (Nat.le_trans hpos hr.ordered) hpb hr.stopBoundary,
      Text.checkRange_eq_ok hpos hpb hr.cutBoundary, hcut.1 start hstart, hstart]
    obtain ⟨h1, h2, hat⟩ := Text.find_bounds hstart
    rw [length_mark_toString] at h2
    rw [mark_toString, ← Text.charAt_eq_some_iff] at hat
    dsimp only
    cases hnext : f.text.charAt (start + sign.utf8Size) with
    | none => rfl
    | some next =>
      dsimp only
      cases hblank : Unicode.isBlank next with
      | true => simp
      | false =>
        obtain ⟨h3, h4, h5⟩ := nameStop_cut hf.valid hsign ends hr hat h2 hnext hblank
        unfold nameStop nameFrom at h5
        unfold nameFrom at h3 h4
        rw [Text.checkRange_eq_ok (Nat.le_trans h3 hr.ordered) h4 hr.stopBoundary,
          Text.checkRange_eq_ok h3 h4 hr.cutBoundary, h5]
  · unfold variableStep
    rw [Text.checkRange_eq_ok (Nat.le_trans hpos hr.ordered) hpb hr.stopBoundary,
      Text.checkRange_eq_ok hr.ordered hr.cutBoundary hr.stopBoundary, hcut.2 hnone]

end Frame

end LexPaint
