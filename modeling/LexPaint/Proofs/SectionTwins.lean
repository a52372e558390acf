import LexPaint.Proofs.Handovers
import LexPaint.Proofs.OutsideStyles

set_option relaxedAutoImplicit false
set_option autoImplicit false

/-!
# Embedded sections in a part that two documents share

No two of the embedded sections of a document overlap. Then what was mapped in a section is what is
known of its offsets in the end. So if two documents share a part, and they have the same sections in it
with the same intervals, each profile has mapped the same in both of them, and it shows the same styles.

## Main definitions

* `Handover.SameIn`: two sections with the same piece of a shared part, in which the same was mapped.
* `Pass.Sections`: what a pass knows in the end of the sections that it has handed over.

## Main results

* `Handover.Runs.styles_exit_eq`: two sections show the same styles in a shared part.
* `Pass.Embeds.twinStyles`: so do two passes that hand over several of them.
* `Pass.Sections.exists_sameIn`: two documents have the same sections in a shared part.
-/

namespace LexPaint

/-! ### Profiles -/

/-- Embedded profiles map literals and then paint tokens, and they know no quote operators. -/
lemma Profile.isPlain_of_embeddable {profile : Profile} (h : profile ∈ embeddable) :
    Primitive.isPlain profile.dialect profile.program = true ∧
      (Primitive.mapping .start profile.program).1.operators = false := by
  have hall : embeddable.all (fun p => Primitive.isPlain p.dialect p.program &&
      !(Primitive.mapping .start p.program).1.operators) = true := by
    decide +kernel
  have := List.all_eq_true.mp hall profile h
  rwa [Bool.and_eq_true, Bool.not_eq_true'] at this

/-- What was mapped in a scope lies in it.

**Proof sketch.** An interval of the layout is one of its eight sets. -/
lemma Layout.Fits.within {f : Frame} {opened : Bool} {l : Layout} (h : l.Fits f opened) :
    ∀ iv ∈ l.allIntervals, f.lo ≤ iv.start ∧ iv.stop ≤ f.hi := by
  have hin {set : IntervalSet} (hset : set.Fits f.lo f.hi) :
      ∀ iv ∈ set.intervals, f.lo ≤ iv.start ∧ iv.stop ≤ f.hi := fun iv hiv =>
    ⟨(hset.within iv hiv).1, (hset.within iv hiv).2.2⟩
  intro iv hiv
  rcases mem_allIntervals.mp hiv with h' | h' | h' | h' | h' | h' | h' | h'
  · exact hin h.quotes iv h'
  · exact hin h.lineComments iv h'
  · exact hin h.blockComments iv h'
  · exact hin h.heredocs iv h'
  · exact hin h.operators iv h'
  · exact hin h.tags iv h'
  · exact hin h.attributeValues iv h'
  · exact hin h.embedded.fits iv h'

/-! ### One section -/

namespace Handover

/-- Two sections that have the same piece of a shared part, with their code in the same place, and in
which the same was mapped there. -/
structure SameIn (h h₀ : Handover) (b b₀ n : Nat) : Prop where
  interval : h.region.interval.SamePiece h₀.region.interval b b₀ n
  code : h.region.code.SamePiece h₀.region.code b b₀ n
  layout : ∀ Q k, k < n → h.region.codeStart ≤ b + k → b + k < h.region.codeStop →
    h.exit.layout.covers Q (b + k) = h₀.exit.layout.covers Q (b₀ + k)

variable {t t₀ : Text} {profile : Profile} {h h₀ : Handover} {b b₀ n k : Nat}

/-- The code of such sections contains the same offsets of the part. -/
lemma SameIn.code_iff (hsame : h.SameIn h₀ b b₀ n) (hk : k < n) :
    (h.region.codeStart ≤ b + k ∧ b + k < h.region.codeStop) ↔
      (h₀.region.codeStart ≤ b₀ + k ∧ b₀ + k < h₀.region.codeStop) :=
  hsame.code.contains_iff hk

namespace Runs

/-- The profile of a section is one that is embedded. -/
lemma profile_mem (hr : h.Runs t profile) : profile ∈ Profile.embeddable :=
  hr.profile_eq ▸ hr.placed.profile_mem

/-- The scope of a section is one of the document. -/
lemma text_eq (hr : h.Runs t profile) : h.call.frame.text = t :=
  hr.placed.text_eq

/-- The scope of a section is well formed. -/
lemma wellFormed (hr : h.Runs t profile) (ht : t.Valid) : h.call.frame.WellFormed :=
  hr.placed.wellFormed (Scene.wellFormed_whole ht false)

/-- The scope of a section has the dialect of its profile. -/
lemma dialect_eq (hr : h.Runs t profile) : h.call.frame.dialect = profile.dialect := by
  rw [← hr.profile_eq]
  rfl

/-- The profile of a section is sound. -/
lemma sound (hr : h.Runs t profile) : profile.Sound :=
  Profile.sound_of_mem_builtIn (Profile.builtIn_of_embeddable hr.profile_mem)

/-- The scope of a section is sealed at its end, as far as the profile needs it. -/
lemma isSealed (hr : h.Runs t profile) (hneeds : Primitive.needsSealAll profile.program = true) :
    h.call.frame.text.Sealed h.call.frame.hi := by
  rw [hr.text_eq]
  exact hr.placed.isSealed (hr.profile_eq ▸ hneeds)

/-- A section starts with an empty layout. -/
lemma blank (hr : h.Runs t profile) : h.call.entry.Blank h.call.frame :=
  ⟨hr.placed.canvas.trans hr.placed.text_eq.symm, rfl, rfl, hr.placed.quiet⟩

/-- The run over a section is one over the document. -/
lemma runAll_eq (hr : h.Runs t profile) :
    Primitive.runAll (.document h.call.frame.text) profile.program h.call.frame h.call.entry =
      .ok h.exit := by
  rw [hr.text_eq, ← hr.profile_eq]
  exact hr.run

/-- What was mapped in a section lies in its code. -/
lemma within (hr : h.Runs t profile) (ht : t.Valid) :
    ∀ iv ∈ h.exit.layout.allIntervals,
      h.region.codeStart ≤ iv.start ∧ iv.stop ≤ h.region.codeStop := by
  have hfits := (Primitive.runAll_ensures
    (Scene.wellFormed_whole (hr.wellFormed ht).valid false) profile.program true h.call.frame
    h.call.entry hr.sound.2 (hr.wellFormed ht) rfl (hr.dialect_eq ▸ hr.sound.1) hr.isSealed
    hr.placed.fits).elim hr.runAll_eq
  have hwithin := hfits.layout.within
  rwa [show h.call.frame.lo = h.region.codeStart from hr.lo_eq,
    show h.call.frame.hi = h.region.codeStop from hr.hi_eq] at hwithin

/-- Without quote operators every heredoc of a section counts. -/
lemma isSome_inEither (hr : h.Runs t profile) (ht : t.Valid) (pos : Nat) :
    (h.exit.layout.composite.inEither pos).isSome = h.exit.layout.coversSort .heredocs pos := by
  obtain ⟨hplain, hoperators⟩ := Profile.isPlain_of_embeddable hr.profile_mem
  obtain ⟨-, p, -, hmapped, hlayout, -⟩ := Primitive.runAll_blank (hr.wellFormed ht)
    (hr.dialect_eq ▸ hr.sound.1) hr.sound.2 hr.isSealed (hr.dialect_eq ▸ hplain) hr.placed.fits hr.blank
    hr.runAll_eq
  rw [hlayout]
  exact hmapped.settled.isSome_inEither (hmapped.noOperators (.inr hoperators))

/-- **A section in a shared part.** Two documents share a part, and a section has the same piece of it in
both. If the documents have looked the same there before the section was handed over, and the same was
mapped there, then the section shows the same styles.

**Proof sketch.** The two scopes share the piece of the code, and an embedded profile is local. -/
theorem styles_exit_eq (hr : h.Runs t profile) (hr₀ : h₀.Runs t₀ profile) (ht : t.Twin t₀ b b₀ n)
    (hsame : h.SameIn h₀ b b₀ n)
    (hview : ∀ k, k < n → h.region.codeStart ≤ b + k → b + k < h.region.codeStop →
      h.call.before.canvas.styles[b + k]? = h₀.call.before.canvas.styles[b₀ + k]?)
    (hk : k < n) (hcode : h.region.codeStart ≤ b + k ∧ b + k < h.region.codeStop) :
    h.exit.canvas.styles[b + k]? = h₀.exit.canvas.styles[b₀ + k]? := by
  obtain ⟨hplain, -⟩ := Profile.isPlain_of_embeddable hr.profile_mem
  have hstart : max h.region.codeStart b + b₀ = max h₀.region.codeStart b₀ + b := hsame.code.start_eq
  have hstop : min h.region.codeStop (b + n) + b₀ = min h₀.region.codeStop (b₀ + n) + b :=
    hsame.code.stop_eq
  obtain ⟨d, hd⟩ := Nat.exists_eq_add_of_le (Nat.le_max_right h.region.codeStart b)
  obtain ⟨m, hm⟩ : ∃ m, min h.region.codeStop (b + n) = b + d + m :=
    ⟨min h.region.codeStop (b + n) - (b + d), by omega⟩
  have hlo : h.call.frame.lo = h.region.codeStart := hr.lo_eq
  have hhi : h.call.frame.hi = h.region.codeStop := hr.hi_eq
  have hlo₀ : h₀.call.frame.lo = h₀.region.codeStart := hr₀.lo_eq
  have hhi₀ : h₀.call.frame.hi = h₀.region.codeStop := hr₀.hi_eq
  -- the piece of the code that lies in the part
  have hshares : h.call.frame.Shares h₀.call.frame (b + d) (b₀ + d) m := by
    refine ⟨b, b₀, d, n, ?_, rfl, rfl, ?_, ?_, ?_, ?_⟩
    · rwa [hr.text_eq, hr₀.text_eq]
    all_goals omega
  have hlayout : h.exit.layout.Twin h₀.exit.layout (b + d) (b₀ + d) m := by
    intro Q j hj
    rw [Nat.add_assoc, Nat.add_assoc]
    exact hsame.layout Q (d + j) (by omega) (by omega) (by omega)
  have htwin := Primitive.runAll_blank_twin (hr.wellFormed ht.valid) (hr₀.wellFormed ht.valid₀)
    (hr.dialect_eq.trans hr₀.dialect_eq.symm) (hr.dialect_eq ▸ hr.sound.1) hr.sound.2
    (fun hneeds => ⟨hr.isSealed hneeds, hr₀.isSealed hneeds⟩) (hr.dialect_eq ▸ hplain) hr.placed.fits
    hr₀.placed.fits hr.blank hr₀.blank hr.runAll_eq hr₀.runAll_eq hshares
    (fun j hj => by
      rw [Nat.add_assoc, Nat.add_assoc]
      exact hview (d + j) (by omega) (by omega) (by omega)) hlayout
    (fun j hj => by
      rw [hr.isSome_inEither ht.valid, hr₀.isSome_inEither ht.valid₀]
      exact hlayout _ j hj)
  have := htwin (k - d) (by omega)
  rwa [show b + d + (k - d) = b + k by omega, show b₀ + d + (k - d) = b₀ + k by omega] at this

end Runs

end Handover

/-! ### Several sections -/

namespace Pass

variable {t t₀ : Text} {profile : Profile} {calls calls₀ : List Handover} {p q p₀ q₀ : Pass}
variable {b b₀ n : Nat}

/-- Two passes that hand over the same sections of a shared part show the same styles in it, if they
have shown the same styles there before.

**Proof sketch.** An offset of the part lies in one of the sections, and then in its counterpart, or
in none of them on either side. -/
theorem Embeds.twinStyles (h : p.Embeds t profile calls q) (h₀ : p₀.Embeds t₀ profile calls₀ q₀)
    (ht : t.Twin t₀ b b₀ n) (hview : p.canvas.TwinStyles p₀.canvas b b₀ n)
    (hforth : ∀ call ∈ calls, ∀ k, k < n → call.region.interval.start ≤ b + k →
      b + k < call.region.interval.stop → ∃ call₀ ∈ calls₀, call.SameIn call₀ b b₀ n)
    (hback : ∀ call₀ ∈ calls₀, ∀ k, k < n → call₀.region.interval.start ≤ b₀ + k →
      b₀ + k < call₀.region.interval.stop → ∃ call ∈ calls, call₀.SameIn call b₀ b n) :
    q.canvas.TwinStyles q₀.canvas b b₀ n := by
  intro k hk
  have hsize := ht.le_size
  have hsize₀ := ht.le_size₀
  by_cases hin : ∃ call ∈ calls, call.region.interval.start ≤ b + k ∧
      b + k < call.region.interval.stop
  · obtain ⟨call, hcall, h1, h2⟩ := hin
    obtain ⟨call₀, hcall₀, hsame⟩ := hforth call hcall k hk h1 h2
    have hpos₀ := (hsame.interval.contains_iff hk).mp ⟨h1, h2⟩
    rw [h.inside call hcall _ h1 h2, h₀.inside call₀ hcall₀ _ hpos₀.1 hpos₀.2,
      if_congr (hsame.code_iff hk) rfl rfl]
    split
    · rename_i hcode
      refine (h.runs call hcall).styles_exit_eq (h₀.runs call₀ hcall₀) ht hsame
        (fun j hj hj1 hj2 => ?_) hk ((hsame.code_iff hk).mpr hcode)
      have hj₀ := (hsame.code_iff hj).mp ⟨hj1, hj2⟩
      rw [h.entered call hcall _ hj1 hj2, h₀.entered call₀ hcall₀ _ hj₀.1 hj₀.2, hview j hj]
    · rfl
  · -- an offset in no section on one side is in none on the other
    have hout₀ : ∀ call₀ ∈ calls₀, ¬ (call₀.region.interval.start ≤ b₀ + k ∧
        b₀ + k < call₀.region.interval.stop) := by
      rintro call₀ hcall₀ hpos₀
      obtain ⟨call, hcall, hsame⟩ := hback call₀ hcall₀ k hk hpos₀.1 hpos₀.2
      exact hin ⟨call, hcall, (hsame.interval.contains_iff hk).mp hpos₀⟩
    rw [h.outside _ (by omega) fun call hcall hpos => hin ⟨call, hcall, hpos⟩,
      h₀.outside _ (by omega) hout₀, hview k hk]

/-- What a pass over a document knows in the end of the sections that it has handed over, if no two of
them overlap. -/
structure Sections (t : Text) (calls : List Handover) (q : Pass) : Prop where
  runs : ∀ call ∈ calls, ∃ profile, call.Runs t profile
  apart : calls.Pairwise fun a b => a.region.interval.Apart b.region.interval
  embedded : ∀ iv, iv ∈ q.layout.embedded.intervals ↔
    iv.start < iv.stop ∧ ∃ call ∈ calls, call.region.interval = iv
  nested : ∀ iv, iv ∈ q.nested.intervals ↔ ∃ call ∈ calls, iv ∈ call.exit.layout.allIntervals

namespace Sections

/-- The sections of a pass are those that it has recorded, up to order. -/
lemma of_perm (hruns : ∀ call ∈ calls, ∃ profile, call.Runs t profile)
    (hperm : q.layout.embedded.intervals.toList.Perm (Handover.recorded calls))
    (hapart : q.layout.embedded.intervals.toList.Pairwise Interval.Apart)
    (hnested : ∀ iv, iv ∈ q.nested.intervals ↔ ∃ call ∈ calls, iv ∈ call.exit.layout.allIntervals) :
    q.Sections t calls := by
  refine ⟨hruns, List.pairwise_map.mp (Interval.pairwise_apart_of_filter ?_), fun iv => ?_, hnested⟩
  · exact (hperm.pairwise_iff fun hab => Std.Symm.symm _ _ hab).mp hapart
  · rw [← Array.mem_toList_iff, hperm.mem_iff, Handover.mem_recorded]

/-- What is known of the offsets of a section is what was mapped in it.

**Proof sketch.** What was mapped in a section lies in its code, and no two sections overlap, so an
interval at the offset belongs to this section. -/
lemma covers_nested (h : q.Sections t calls) (ht : t.Valid) {call : Handover} (hcall : call ∈ calls)
    {i : Nat} (hi : call.region.codeStart ≤ i ∧ i < call.region.codeStop) (Q : IntervalKind → Bool) :
    covers q.nested.intervals.toList Q i = call.exit.layout.covers Q i := by
  rw [Layout.covers, Bool.eq_iff_iff, covers_iff, covers_iff]
  constructor
  · rintro ⟨iv, hiv, hQ, hpos⟩
    obtain ⟨other, hother, hmem⟩ := (h.nested iv).mp (Array.mem_toList_iff.mp hiv)
    obtain ⟨_, hruns⟩ := h.runs call hcall
    obtain ⟨_, hruns'⟩ := h.runs other hother
    -- the interval lies in the code of its section, which is the one that the offset lies in
    have hin := hruns'.within ht iv hmem
    have hstart := hruns.start_le
    have hstop := hruns.le_stop
    have hstart' := hruns'.start_le
    have hstop' := hruns'.le_stop
    have hsame : other = call := by
      by_contra hne
      have hsymm : Std.Symm fun a b : Handover => a.region.interval.Apart b.region.interval :=
        ⟨fun _ _ hab => Std.Symm.symm _ _ hab⟩
      have := Interval.apart_iff.mp (h.apart.forall hother hcall hne)
      omega
    exact ⟨iv, hsame ▸ hmem, hQ, hpos⟩
  · rintro ⟨iv, hiv, hQ, hpos⟩
    exact ⟨iv, Array.mem_toList_iff.mpr ((h.nested iv).mpr ⟨call, hcall, hiv⟩), hQ, hpos⟩

/-- **Sections in a shared part.** Two documents share a part and have the same embedded sections in it,
with the same intervals inside of them. Then each section that reaches into the part has a counterpart,
as long as their codes lie in the same places.

**Proof sketch.** The sets of embedded sections have the same pieces in the part, which gives the
counterpart. What was mapped in either of them is what is known of the offsets in the end. -/
theorem exists_sameIn (h : q.Sections t calls) (h₀ : q₀.Sections t₀ calls₀) (ht : t.Valid)
    (ht₀ : t₀.Valid) (halike : q.Alike q₀ b b₀ n) {call : Handover} (hcall : call ∈ calls) {k : Nat}
    (hk : k < n) (hpos : call.region.interval.start ≤ b + k ∧ b + k < call.region.interval.stop)
    (hcode : ∀ call₀ ∈ calls₀, call.region.interval.SamePiece call₀.region.interval b b₀ n →
      call.region.code.SamePiece call₀.region.code b b₀ n) :
    ∃ call₀ ∈ calls₀, call.SameIn call₀ b b₀ n := by
  have hmem : call.region.interval ∈ q.layout.embedded.intervals :=
    (h.embedded _).mpr ⟨by omega, call, hcall, rfl⟩
  obtain ⟨iv₀, hiv₀, hsame⟩ :=
    halike.embedded.forth _ (Array.mem_toList_iff.mpr hmem) k hk hpos.1 hpos.2
  obtain ⟨-, call₀, hcall₀, rfl⟩ := (h₀.embedded iv₀).mp (Array.mem_toList_iff.mp hiv₀)
  have hcode := hcode call₀ hcall₀ hsame
  refine ⟨call₀, hcall₀, hsame, hcode, fun Q j hj hj1 hj2 => ?_⟩
  rw [← h.covers_nested ht hcall ⟨hj1, hj2⟩,
    ← h₀.covers_nested ht₀ hcall₀ ((hcode.contains_iff hj).mp ⟨hj1, hj2⟩)]
  exact halike.nested.covers_eq hj

end Sections

end Pass

end LexPaint
