import LexPaint.Proofs.IntervalQueries
import LexPaint.Proofs.RegionParts

set_option relaxedAutoImplicit false
set_option autoImplicit false

/-!
# Handing sections over

A full pass hands sections to a profile one after the other. If no two of them overlap, then each of them
starts on the canvas from before, and what shows in it in the end is what its profile has left there,
with the marks around it.

## Main definitions

* `Handover`: a section that was handed over, with the pass over its code.
* `Handover.recorded`: what is recorded of several sections.
* `Pass.Embeds`: what handing over several sections has done.

## Main results

* `Pass.Embeds.append`: one section after the other.
* `Pass.Embeds.regions`: several regions.
* `Primitive.run_embeds`: what an embedding primitive of markup does.
-/

namespace LexPaint

/-- A section that was handed to a profile. -/
structure Handover where
  /-- The region of the section. -/
  region : Region
  /-- The code of the region as it was handed over. -/
  call : Delegation
  /-- The pass over the code in the end. -/
  exit : Pass

/-- The sections as they are recorded, without empty ones. -/
def Handover.recorded (calls : List Handover) : List Interval :=
  (calls.map fun h => h.region.interval).filter fun iv => !iv.isEmpty

/-- What is recorded of sections that are handed over one after the other. -/
lemma Handover.recorded_append (calls calls' : List Handover) :
    recorded (calls ++ calls') = recorded calls ++ recorded calls' := by
  rw [recorded, List.map_append, List.filter_append]
  rfl

/-- A section is recorded if it is not empty. -/
lemma Handover.mem_recorded {calls : List Handover} {iv : Interval} :
    iv ∈ recorded calls ↔ iv.start < iv.stop ∧ ∃ h ∈ calls, h.region.interval = iv := by
  simp [recorded, Interval.isEmpty, and_comm]

/-- What holds of a section that was handed over in a full pass. -/
structure Handover.Runs (t : Text) (profile : Profile) (h : Handover) : Prop where
  placed : h.call.Placed (.document t)
  lo_eq : h.call.lo = h.region.codeStart
  hi_eq : h.call.hi = h.region.codeStop
  start_le : h.region.interval.start ≤ h.region.codeStart
  code_le : h.region.codeStart ≤ h.region.codeStop
  le_stop : h.region.codeStop ≤ h.region.interval.stop
  stop_le : h.region.interval.stop ≤ t.size
  profile_eq : h.call.profile = profile
  run : Primitive.runAll (.document t) h.call.profile.program h.call.frame h.call.entry = .ok h.exit

/-- What handing over sections, no two of which overlap, makes of a full pass. -/
structure Pass.Embeds (t : Text) (profile : Profile) (calls : List Handover) (p q : Pass) : Prop where
  runs : ∀ h ∈ calls, h.Runs t profile
  entered : ∀ h ∈ calls, ∀ i, h.region.codeStart ≤ i → i < h.region.codeStop →
    h.call.before.canvas.styles[i]? = p.canvas.styles[i]?
  inside : ∀ h ∈ calls, ∀ i, h.region.interval.start ≤ i → i < h.region.interval.stop →
    q.canvas.styles[i]? =
      if h.region.codeStart ≤ i ∧ i < h.region.codeStop then h.exit.canvas.styles[i]?
      else some .embeddedMarker
  outside : ∀ i, i < t.size →
    (∀ h ∈ calls, ¬ (h.region.interval.start ≤ i ∧ i < h.region.interval.stop)) →
    q.canvas.styles[i]? = p.canvas.styles[i]?
  nested : ∀ iv, iv ∈ q.nested.intervals ↔
    iv ∈ p.nested.intervals ∨ ∃ h ∈ calls, iv ∈ h.exit.layout.allIntervals

namespace Pass.Embeds

variable {t : Text} {profile : Profile} {calls calls' : List Handover} {p q r : Pass}

/-- Handing nothing over changes nothing. -/
lemma nil (t : Text) (profile : Profile) (p : Pass) : p.Embeds t profile [] p where
  runs := by simp
  entered := by simp
  inside := by simp
  outside := fun _ _ _ => rfl
  nested := by simp

/-- Sections that are handed over later leave the earlier ones as they are, and they start on the canvas
from before these.

**Proof sketch.** An offset lies in one of the sections at most, since none of the earlier ones
overlaps a later one. So the later sections leave what shows in the earlier ones, and they start on
what was there before. -/
lemma append (h : p.Embeds t profile calls q) (h' : q.Embeds t profile calls' r)
    (hapart : ∀ a ∈ calls, ∀ b ∈ calls', a.region.interval.Apart b.region.interval) :
    p.Embeds t profile (calls ++ calls') r := by
  have hout {a b : Handover} (ha : a ∈ calls) (hb : b ∈ calls') {i : Nat}
      (hi : a.region.interval.start ≤ i ∧ i < a.region.interval.stop)
      (hi' : b.region.interval.start ≤ i ∧ i < b.region.interval.stop) : False := by
    have := Interval.apart_iff.mp (hapart a ha b hb)
    omega
  refine ⟨fun call hcall => ?_, fun call hcall i h1 h2 => ?_, fun call hcall i h1 h2 => ?_,
    fun i hi hnone => ?_, fun iv => ?_⟩
  · exact (List.mem_append.mp hcall).elim (h.runs call) (h'.runs call)
  · rcases List.mem_append.mp hcall with hmem | hmem
    · exact h.entered call hmem i h1 h2
    · have hruns := h'.runs call hmem
      have hle := hruns.start_le
      have hstop := hruns.le_stop
      have hsize := hruns.stop_le
      rw [h'.entered call hmem i h1 h2]
      exact h.outside i (by omega) fun a ha hin => hout ha hmem hin (by omega)
  · rcases List.mem_append.mp hcall with hmem | hmem
    · have hsize := (h.runs call hmem).stop_le
      rw [← h.inside call hmem i h1 h2]
      exact h'.outside i (by omega) fun b hb hin => hout hmem hb ⟨h1, h2⟩ hin
    · exact h'.inside call hmem i h1 h2
  · rw [h'.outside i hi fun b hb => hnone b (List.mem_append_right _ hb)]
    exact h.outside i hi fun a ha => hnone a (List.mem_append_left _ ha)
  · rw [h'.nested, h.nested]
    simp only [List.mem_append, or_and_right, exists_or]
    exact or_assoc

/-- One section that is handed over.

**Proof sketch.** The section is lexed as if it were a document (`Delegation.Placed.ownsSection`).
Its marks are painted around the code, and nothing is painted outside. -/
lemma single (ht : t.Valid) {d : Dialect} {startTag endTag : Mark} {element : Bool} {region : Region}
    (hplaced : (region.delegation (.document t) (.document t d) endTag element profile p).Placed
      (.document t))
    (hstop : region.interval.stop ≤ t.size)
    (hparts : (element = true → region.IsContent) ∧
      (element = false → region.Marked t [startTag] endTag))
    (hq : (region.delegation (.document t) (.document t d) endTag element profile p).outcome
      (.document t) = .ok q) : ∃ call, call.region = region ∧ p.Embeds t profile [call] q := by
  have hs : (Scene.document t).WellFormed := Scene.wellFormed_whole ht false
  obtain ⟨after, alone, howns⟩ := hplaced.ownsSection hs
  obtain rfl : q = after := Except.ok.inj (hq.symm.trans howns.outcome)
  obtain ⟨exit, hexit⟩ := hplaced.exists_inside hs
  have hexited := Except.ok.inj (hq.symm.trans (hplaced.outcome_eq hexit))
  -- an embeddable program has no embedded sections of its own
  have hkept := Primitive.runAll_nested (Profile.flat_of_embeddable hplaced.profile_mem) hexit
  have hnested : exit.nested = p.nested := hkept
  have hcode : region.codeStart ≤ region.codeStop := hplaced.ordered
  have hbounds : region.interval.start ≤ region.codeStart ∧
      region.codeStop ≤ region.interval.stop := by
    cases element with
    | true =>
      obtain ⟨h1, h2⟩ := hparts.1 rfl
      omega
    | false =>
      obtain ⟨⟨m, -, -, h1⟩, -, -, h2⟩ := hparts.2 rfl
      refine ⟨by omega, ?_⟩
      rcases h2 with ⟨-, -, h2⟩ | ⟨-, h2, -⟩ <;> omega
  have hmarks (i : Nat) (hi : i < t.size) :
      (paintRegionMarks (.document t) endTag element region p.canvas).styles[i]? =
        if region.interval.start ≤ i ∧ i < region.interval.stop ∧
          ¬ (region.codeStart ≤ i ∧ i < region.codeStop) then some .embeddedMarker
        else p.canvas.styles[i]? := by
    cases element with
    | true =>
      obtain ⟨h1, h2⟩ := hparts.1 rfl
      rw [if_neg (by omega)]
      rfl
    | false =>
      exact styles_paintRegionMarks (hparts.2 rfl)
        ((text_paintRegionMarks ..).symm.trans hplaced.canvas) hcode hi
  -- the code is lexed on a canvas that has the marks, and nothing but the code is painted
  have houtside (i : Nat) (hi : ¬ (region.codeStart ≤ i ∧ i < region.codeStop)) :
      q.canvas.styles[i]? =
        (paintRegionMarks (.document t) endTag element region p.canvas).styles[i]? := by
    refine howns.outside i ?_
    show i < region.codeStart ∨ region.codeStop ≤ i
    omega
  refine ⟨⟨region, region.delegation (.document t) (.document t d) endTag element profile p, exit⟩, rfl,
    ?_⟩
  refine ⟨fun h hh => ?_, fun h hh i h1 h2 => ?_, fun h hh i h1 h2 => ?_, fun i hi hnone => ?_,
    fun iv => ?_⟩
  · obtain rfl := List.mem_singleton.mp hh
    exact ⟨hplaced, rfl, rfl, hbounds.1, hcode, hbounds.2, hstop, rfl, hexit⟩
  · obtain rfl := List.mem_singleton.mp hh
    dsimp only at h1 h2
    exact (hmarks i (by omega)).trans (if_neg (by omega))
  · obtain rfl := List.mem_singleton.mp hh
    dsimp only at h1 h2 ⊢
    split
    · rw [hexited]
    · rename_i hout
      rw [houtside i hout]
      exact (hmarks i (by omega)).trans (if_pos ⟨h1, h2, hout⟩)
  · have hnone := hnone _ (List.mem_singleton_self _)
    dsimp only at hnone
    rw [houtside i (by omega)]
    exact (hmarks i hi).trans (if_neg (by omega))
  · rw [hexited]
    simp only [IntervalSet.mem_foldl_add, hnested, List.mem_singleton, exists_eq_left]
    exact or_comm

/-- Several regions that are handed over one after the other.

**Proof sketch.** Induction on the regions, with `single` for the first one and `append` for the
others. -/
lemma regions (ht : t.Valid) {d : Dialect} {startTag endTag : Mark} {element opened : Bool}
    (hprofile : profile ∈ Profile.embeddable)
    (hseal : Primitive.needsSealAll profile.program = true → opened = true ∧ endTag.StartsSealed)
    {regions : List Region}
    (hfound : ∀ r ∈ regions, Frame.RegionFound (.document t d) startTag endTag element opened r ∧
      r.Bordered (.document t d))
    (hparts : ∀ r ∈ regions, (element = true → r.IsContent) ∧
      (element = false → r.Marked t [startTag] endTag))
    (hapart : regions.Pairwise fun a b => a.interval.Apart b.interval)
    (htext : p.canvas.text = t) (hquiet : p.repair = none)
    (hq : regions.foldlM (fun p r =>
      (r.delegation (.document t) (.document t d) endTag element profile p).outcome (.document t)) p =
        .ok q) : ∃ calls, calls.map Handover.region = regions ∧ p.Embeds t profile calls q := by
  induction regions generalizing p with
  | nil =>
    cases hq
    exact ⟨[], rfl, .nil t profile _⟩
  | cons r rest ih =>
    obtain ⟨hr, hborders⟩ := hfound r (List.mem_cons_self ..)
    obtain ⟨hhead, hrest⟩ := List.pairwise_cons.mp hapart
    have hplaced : (r.delegation (.document t) (.document t d) endTag element profile p).Placed
        (.document t) := placed_delegation hprofile hseal hr hborders htext hquiet
    rw [List.foldlM_cons] at hq
    obtain ⟨p₁, hp₁, hq⟩ := bind_eq_ok.mp hq
    obtain ⟨call, hregion, hcall⟩ :=
      single ht hplaced hr.stop_le (hparts r (List.mem_cons_self ..)) hp₁
    obtain ⟨after, alone, howns⟩ := hplaced.ownsSection (Scene.wellFormed_whole ht false)
    -- the first region leaves the text and asks for no repair, so the others start as it did
    obtain rfl : p₁ = after := Except.ok.inj (hp₁.symm.trans howns.outcome)
    obtain ⟨calls, hregions, hcalls⟩ := ih (fun r' hr' => hfound r' (List.mem_cons_of_mem _ hr'))
      (fun r' hr' => hparts r' (List.mem_cons_of_mem _ hr')) hrest
      (howns.text.trans hplaced.canvas) (howns.repair.trans hplaced.quiet) hq
    refine ⟨call :: calls, by rw [List.map_cons, hregion, hregions], hcall.append hcalls ?_⟩
    intro a ha b hb
    obtain rfl := List.mem_singleton.mp ha
    rw [hregion]
    exact hhead _ (hregions ▸ List.mem_map_of_mem hb)

end Pass.Embeds

/-! ### Embedding primitives -/

/-- What a set holds after the sections of some regions were recorded.

**Proof sketch.** Empty sections are not recorded, and adding intervals one by one keeps all of them. -/
lemma IntervalSet.foldl_addRegion_perm (set : IntervalSet) (regions : List Region) :
    (regions.foldl Frame.addRegion set).intervals.toList.Perm
      (set.intervals.toList ++ (regions.map Region.interval).filter fun iv => !iv.isEmpty) := by
  have hfold : regions.foldl Frame.addRegion set =
      ((regions.map Region.interval).filter fun iv => !iv.isEmpty).foldl add set := by
    induction regions generalizing set with
    | nil => rfl
    | cons r rest ih =>
      rw [List.foldl_cons, ih, List.map_cons, List.filter_cons, Frame.addRegion]
      cases r.interval.isEmpty <;> rfl
  rw [hfold]
  exact foldl_add_perm set _

namespace Interval

variable {ivs ivs' found : List Interval}

/-- What is left of intervals that do not overlap if some of them are taken away. -/
lemma pairwise_apart_of_perm (hperm : ivs'.Perm (ivs ++ found)) (h : ivs'.Pairwise Apart) :
    ivs.Pairwise Apart ∧ found.Pairwise Apart := by
  have hboth := List.pairwise_append.mp
    ((hperm.pairwise_iff fun hab => Std.Symm.symm _ _ hab).mp h)
  exact ⟨hboth.1, hboth.2.1⟩

/-- Sections do not overlap if those do not that are not empty. -/
lemma pairwise_apart_of_filter (h : (ivs.filter fun iv => !iv.isEmpty).Pairwise Apart) :
    ivs.Pairwise Apart := by
  refine (List.pairwise_filter.mp h).imp fun {a b} hab => apart_iff.mpr ?_
  by_cases ha : a.stop ≤ a.start
  · exact .inr (.inr (.inl ha))
  · by_cases hb : b.stop ≤ b.start
    · exact .inr (.inr (.inr hb))
    · exact apart_iff.mp (hab (by simpa [isEmpty] using ha) (by simpa [isEmpty] using hb))

end Interval

namespace Primitive

variable {t : Text} {d : Dialect} {opened : Bool} {p q : Pass} {startTag endTag : Mark}
variable {element : Bool} {name : String} {dialect : Dialect} {body : List Primitive}

/-- What an embedding primitive of markup does, if no two of the sections that are there then overlap: it
hands its sections over and records them.

**Proof sketch.** The sweep for regions finds regions between the borders of markup, and those that
it records do not overlap. So handing them over is what `Pass.Embeds.regions` says. -/
theorem run_embeds (ht : t.Valid)
    (hsound : sound opened (.innerSection startTag endTag element name dialect body) = true)
    (hmarked : embedsMarked (.innerSection startTag endTag element name dialect body))
    (hp : p.Bordered (.document t d) opened) (hquiet : p.repair = none)
    (h : run (.document t) (.innerSection startTag endTag element name dialect body)
      (.document t d) p = .ok q)
    (hapart : q.layout.embedded.intervals.toList.Pairwise Interval.Apart) :
    ∃ calls, p.Embeds t ⟨name, dialect, body⟩ calls q ∧
      q.layout.embedded.intervals.toList.Perm
        (p.layout.embedded.intervals.toList ++ Handover.recorded calls) ∧
      ∀ call ∈ calls, call.region.interval.kind = .embedded name ∧
        (element = true → call.region.IsContent) ∧
          (element = false → call.region.Marked t [startTag] endTag) := by
  have hne := Mark.ne_nil_of_opens hmarked.1
  have hnonempty : startTag.isEmpty = false := by
    simpa using hne
  simp only [run] at h
  rw [Pass.mapRegions, hnonempty, if_neg Bool.false_ne_true] at h
  obtain ⟨harvest, hcollect, h⟩ := bind_eq_ok.mp h
  obtain ⟨hregions, hseal, -, -⟩ := innerSection_found (s := .document t)
    (Scene.wellFormed_whole ht false) hsound hmarked hp rfl hcollect
  have hparts := Frame.regions_parts hne hcollect
  simp only [← Array.mem_toList_iff] at hparts
  rw [← Array.foldlM_toList] at h
  have hlayout : q.layout.embedded = harvest.items.toList.foldl Frame.addRegion p.layout.embedded := by
    rw [Pass.layout_foldlM (fun p r q hq => by simpa using Pass.layout_delegate hq) h]
    exact (Array.foldl_toList _).symm
  have hperm := IntervalSet.foldl_addRegion_perm p.layout.embedded harvest.items.toList
  rw [← hlayout] at hperm
  -- the sections that this primitive has added are among those that do not overlap
  have hside := Interval.pairwise_apart_of_filter (Interval.pairwise_apart_of_perm hperm hapart).2
  obtain ⟨calls, hcalls, hruns, hentered, hinside, houtside, hnested⟩ :=
    Pass.Embeds.regions (p := { p with layout := { p.layout with
        embedded := harvest.items.foldl Frame.addRegion p.layout.embedded } })
      ht hmarked.2.2 hseal hregions (fun r hr => (hparts r hr).2) (List.pairwise_map.mp hside)
      hp.text hquiet h
  refine ⟨calls, ⟨hruns, hentered, hinside, houtside, hnested⟩, ?_,
    fun call hcall => hparts _ (hcalls ▸ List.mem_map_of_mem hcall)⟩
  rw [← hcalls, List.map_map] at hperm
  exact hperm

end Primitive

end LexPaint
