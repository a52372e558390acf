import LexPaint.Proofs.LiteralEnds
import LexPaint.Proofs.LocalPasses
import LexPaint.Proofs.Shading
import LexPaint.Proofs.SortFrames

set_option relaxedAutoImplicit false
set_option autoImplicit false

/-!
# The sets after one pass

Containment queries on a set only look at the nearest interval that starts early enough, and change
detection walks two sets in step. Both rest on the shape of the sets: intervals that are not empty, cut
no character, and lie one behind the other. No set enforces that shape. It comes from the scans, each
of which goes on behind what it has mapped, and from the programs, which map each sort of literal at
most once. Block comments are the exception, because a language may have several pairs of marks.

## Main definitions

* `IntervalSet.Regular`: the intervals lie one behind the other, whole characters each.
* `Layout.Regular`: the sets of a layout are regular and agree with one another.
* `Primitive.mapsOnceAll`: a program maps each sort of literal at most once.

## Main results

* `Primitive.run_regular`, `Primitive.runAll_regular`: the step and the run.
* `Painter.pass_regular`: the sets after any pass of a built-in profile, full or local.
-/

namespace LexPaint

/-! ### Regular sets -/

/-- Intervals of a text that lie one behind the other. -/
structure IntervalSet.Regular (t : Text) (s : IntervalSet) : Prop where
  clean : ∀ iv ∈ s.intervals, iv.Clean t
  within : ∀ iv ∈ s.intervals, iv.stop ≤ t.size
  increasing : s.intervals.toList.Pairwise fun a b => a.start < b.start
  disjoint : s.intervals.toList.Pairwise fun a b => a.stop ≤ b.start

namespace IntervalSet

variable {t : Text} {s : IntervalSet} {lo hi : Nat}

/-- Intervals side by side that cut no character make a regular set. -/
lemma regular_of_tiles {l : List Interval} (hl : s.intervals.toList = l) (htiles : Tiles lo hi l)
    (hclean : ∀ iv ∈ l, iv.Clean t) : s.Regular t := by
  subst hl
  refine ⟨fun iv hiv => hclean iv (Array.mem_toList_iff.mpr hiv), fun iv hiv => ?_, ?_, htiles.2⟩
  · exact Text.le_size_of_isBoundary (hclean iv (Array.mem_toList_iff.mpr hiv)).stopBoundary
  · refine htiles.2.imp_of_mem fun {a b} ha _ hab => ?_
    exact Nat.lt_of_lt_of_le (hclean a ha).nonempty hab

/-- An empty set is regular. -/
lemma regular_of_empty (h : s.intervals = #[]) : s.Regular t := by
  have htiles : Tiles 0 0 [] := .nil
  exact regular_of_tiles (by rw [h]) htiles (by simp)

/-- What a sweep maps becomes a regular set, if nothing of its sort was mapped before. -/
lemma regular_addAll {found : Array Interval} (hs : s.intervals = #[])
    (htiles : Tiles lo hi found.toList) (hclean : ∀ iv ∈ found, iv.Clean t) (tested accepted : Nat) :
    ((s.addAll found).count tested accepted).Regular t :=
  regular_of_tiles (toList_addAll hs (htiles.nested.imp And.left)) htiles
    fun iv hiv => hclean iv (Array.mem_toList_iff.mp hiv)

/-- Intervals side by side are added to an empty set in their order. -/
lemma toList_foldl_add_of_tiles {l : List Interval} (hs : s.intervals = #[]) (htiles : Tiles lo hi l) :
    (l.foldl IntervalSet.add s).intervals.toList = l := by
  have hnil : s.intervals.toList = [] := by rw [hs]
  rw [toList_foldl_add, hnil]
  · rfl
  · rw [hnil]
    exact htiles.nested.imp And.left

end IntervalSet

/-- The sets of a layout after a pass over a text. -/
structure Layout.Regular (t : Text) (l : Layout) : Prop where
  quotes : l.quotes.Regular t
  lineComments : l.lineComments.Regular t
  heredocs : l.composite.heredocs.Regular t
  operators : l.composite.operators.Regular t
  tags : l.tags.Regular t
  attributeValues : l.attributeValues.Regular t
  starts : l.commentStarts.toList = l.lineComments.intervals.toList.map Interval.start
  oneLine : ∀ iv ∈ l.lineComments.intervals, ∀ i, iv.start ≤ i → i < iv.stop →
    t.byteAt i ≠ some newline
  values : ∀ value ∈ l.attributeValues.intervals, ∃ tag ∈ l.tags.intervals,
    tag.start ≤ value.start ∧ value.stop ≤ tag.stop

/-- An empty layout is regular. -/
lemma Layout.regular_reset (t : Text) (l : Layout) : l.reset.Regular t where
  quotes := IntervalSet.regular_of_empty rfl
  lineComments := IntervalSet.regular_of_empty rfl
  heredocs := IntervalSet.regular_of_empty rfl
  operators := IntervalSet.regular_of_empty rfl
  tags := IntervalSet.regular_of_empty rfl
  attributeValues := IntervalSet.regular_of_empty rfl
  starts := rfl
  oneLine := fun _ hiv => absurd hiv (Array.not_mem_empty _)
  values := fun _ hiv => absurd hiv (Array.not_mem_empty _)

/-- Keeping a pass as history leaves what it has mapped. -/
lemma Layout.Regular.commit {t : Text} {l : Layout} (h : l.Regular t) : l.commit.Regular t where
  quotes := ⟨h.quotes.clean, h.quotes.within, h.quotes.increasing, h.quotes.disjoint⟩
  lineComments := ⟨h.lineComments.clean, h.lineComments.within, h.lineComments.increasing,
    h.lineComments.disjoint⟩
  heredocs := ⟨h.heredocs.clean, h.heredocs.within, h.heredocs.increasing, h.heredocs.disjoint⟩
  operators := ⟨h.operators.clean, h.operators.within, h.operators.increasing,
    h.operators.disjoint⟩
  tags := ⟨h.tags.clean, h.tags.within, h.tags.increasing, h.tags.disjoint⟩
  attributeValues := ⟨h.attributeValues.clean, h.attributeValues.within,
    h.attributeValues.increasing, h.attributeValues.disjoint⟩
  starts := h.starts
  oneLine := h.oneLine
  values := h.values

/-! ### What the primitives map -/

namespace Frame

variable {f : Frame} {l : Layout}

/-- The values of tags that lie side by side lie side by side.

**Proof sketch.** Values lie in their tags, and tags lie side by side. -/
lemma tiles_values {lo hi : Nat} {tags : List TagFind}
    (htags : Tiles lo hi (tags.map fun tag => ⟨tag.start, tag.stop, .tag⟩))
    (hfits : ∀ tag ∈ tags, f.TagFits tag) :
    Tiles lo hi (tags.flatMap fun tag => valueIntervals tag.values) := by
  constructor
  · intro iv hiv
    obtain ⟨tag, htag, hiv⟩ := List.mem_flatMap.mp hiv
    have h1 := (hfits tag htag).values.1 iv hiv
    have h2 := htags.1 _ (List.mem_map_of_mem htag)
    dsimp only at h2
    omega
  · refine List.pairwise_flatMap.mpr ⟨fun tag htag => (hfits tag htag).values.2, ?_⟩
    refine (List.pairwise_map.mp htags.2).imp_of_mem fun {a b} ha hb hab x hx y hy => ?_
    have h1 := (hfits a ha).values.1 x hx
    have h2 := (hfits b hb).values.1 y hy
    dsimp only at hab
    omega

/-- The tags of a sweep that has succeeded lie side by side, wherever the sections end that it jumps
over.

**Proof sketch.** A step goes on behind the tag that it has found, or behind the section that it
jumps over. -/
lemma tiles_tags (hf : f.WellFormed) {harvest : Sweep.Harvest TagFind}
    (h : Sweep.collect (f.tagStep l) f.hi f.lo () = .ok harvest) :
    Tiles f.lo f.hi (harvest.items.toList.map fun tag => ⟨tag.start, tag.stop, .tag⟩) := by
  rw [List.map_eq_flatMap]
  refine Sweep.tiles_of_collect ?_ hf.ordered h
  intro pos u verdict next u' hlo hgo
  obtain ⟨_, -, hgo⟩ := bind_eq_ok.mp hgo
  split at hgo
  · cases hgo
  · rename_i start hstart
    obtain ⟨h1, h2, -⟩ := Text.findByte_bounds hstart
    split at hgo
    · cases hgo
      exact ⟨by omega, by simp⟩
    · split at hgo
      · cases hgo
        refine ⟨by omega, fun tag htag => ?_⟩
        cases htag
        have hfits := tagAt_fits (l := l) (by omega : f.lo ≤ start) h2
        exact .singleton h1 (Nat.le_of_lt hfits.start_lt) (Nat.le_max_left _ _)
      · cases hgo
        exact ⟨by omega, by simp⟩

end Frame

namespace Pass

variable {s : Scene} {f : Frame} {p q : Pass}

/-- Mapping strings keeps a layout regular. -/
lemma mapQuotes_regular (hf : f.WellFormed) (hp : p.layout.Regular f.text)
    (hnone : p.layout.quotes.intervals = #[]) {singleLine : Bool}
    (h : p.mapQuotes s f singleLine = .ok q) : q.layout.Regular f.text := by
  obtain ⟨_, -, h⟩ := bind_eq_ok.mp h
  obtain ⟨harvest, hharvest, h⟩ := bind_eq_ok.mp h
  cases h
  rw [layout_repairIf]
  have htiles := ((Frame.quotes_ensures hf p.layout p.condition singleLine).elim hharvest).1
  exact { hp with
    quotes := IntervalSet.regular_addAll hnone htiles (Frame.quotes_clean hf hharvest) _ _ }

/-- Mapping line comments keeps a layout regular. -/
lemma mapLineComments_regular (hf : f.WellFormed) (hp : p.layout.Regular f.text)
    (hnone : p.layout.lineComments.intervals = #[]) {marks : List Mark}
    (hm : ∀ m ∈ marks, m.IsPlain) (h : p.mapLineComments s f marks = .ok q) :
    q.layout.Regular f.text := by
  obtain ⟨harvest, hharvest, h⟩ := bind_eq_ok.mp h
  cases h
  rw [layout_repairIf]
  have htiles := ((Frame.lineComments_ensures hf p.layout p.condition hm).elim hharvest).1
  have hclean := Frame.lineComments_clean hf hm hharvest
  have hitems : (p.layout.lineComments.addAll harvest.items).intervals.toList =
      harvest.items.toList :=
    IntervalSet.toList_addAll hnone (htiles.nested.imp And.left)
  have hstarts : p.layout.commentStarts.toList = [] := by rw [hp.starts, hnone]; rfl
  exact { hp with
    lineComments := IntervalSet.regular_addAll hnone htiles (fun iv hiv => (hclean iv hiv).1) _ _
    starts := by
      show (p.layout.commentStarts ++ harvest.items.map Interval.start).toList =
        (p.layout.lineComments.addAll harvest.items).intervals.toList.map Interval.start
      rw [Array.toList_append, hstarts, hitems, Array.toList_map, List.nil_append]
    oneLine := fun iv hiv => by
      refine (hclean iv ?_).2
      rw [← Array.mem_toList_iff, ← hitems, Array.mem_toList_iff]
      exact hiv }

/-- Mapping heredocs keeps a layout regular. -/
lemma mapHeredocs_regular (hf : f.WellFormed) (hp : p.layout.Regular f.text)
    (hnone : p.layout.composite.heredocs.intervals = #[])
    (hd : ∀ r, f.dialect.heredocs = some r → r.opener.IsPlain) (h : p.mapHeredocs s f = .ok q) :
    q.layout.Regular f.text := by
  rcases mapHeredocs_cases h with
    ⟨-, rfl⟩ | ⟨rules, harvest, set, changed, hrules, hharvest, rfl, -, rfl⟩
  · exact hp
  · have htiles := ((Frame.heredocs_ensures hf (hd rules hrules)).elim hharvest).1
    have hclean := Frame.heredocs_clean hf (hd rules hrules) hharvest
    rw [layout_repairIf]
    refine { hp with heredocs := ?_ }
    have hsub : Tiles f.lo f.hi (harvest.items.toList.flatMap Frame.heredocEntries) :=
      htiles.sublist (List.Sublist.flatMap_right _ fun x _ => Frame.heredocEntries_sublist x)
    refine IntervalSet.regular_of_tiles (l := harvest.items.toList.flatMap Frame.heredocEntries) ?_
      hsub fun iv hiv => ?_
    · rw [← IntervalSet.toList_foldl_add_of_tiles hnone hsub, ← foldl_addHeredoc, Array.foldl_toList]
      rfl
    · obtain ⟨found, hfound, hiv⟩ := List.mem_flatMap.mp hiv
      obtain ⟨htag, hbody⟩ := hclean found (Array.mem_toList_iff.mp hfound)
      unfold Frame.heredocEntries at hiv
      split at hiv
      · rw [List.mem_singleton.mp hiv]
        exact htag
      · rename_i hne
        rcases List.mem_pair.mp hiv with rfl | rfl
        · exact htag
        · exact hbody (Bool.eq_false_iff.mpr hne)

/-- Mapping quote operators keeps a layout regular. -/
lemma mapOperators_regular (hf : f.WellFormed) (hp : p.layout.Regular f.text)
    (hnone : p.layout.composite.operators.intervals = #[]) (h : p.mapOperators s f = .ok q) :
    q.layout.Regular f.text := by
  rcases mapOperators_cases h with ⟨-, rfl⟩ | ⟨rules, harvest, set, changed, -, hharvest, rfl, rfl⟩
  · exact hp
  · have htiles := ((Frame.operators_ensures hf p.layout rules).elim hharvest).1
    have hclean := Frame.operators_clean hf hharvest
    rw [layout_repairIf]
    exact { hp with operators := IntervalSet.regular_addAll hnone htiles hclean _ _ }

/-- What a sweep for tags adds to a layout without tags and values, and what it paints.

**Proof sketch.** Tags lie side by side, and so do the values in them, so both sets hold them in the
order of the sweep. -/
lemma mapTags_lists (hf : f.WellFormed) (htags : p.layout.tags.intervals = #[])
    (hvalues : p.layout.attributeValues.intervals = #[]) (h : p.mapTags s f = .ok q) :
    ∃ harvest tags values, Sweep.collect (f.tagStep p.layout) f.hi f.lo () = .ok harvest ∧
      q.layout = { p.layout with tags := tags, attributeValues := values } ∧
      q.canvas = harvest.items.foldl (paintTag s p.layout.embedded) p.canvas ∧
      tags.intervals.toList = harvest.items.toList.map (fun tag => ⟨tag.start, tag.stop, .tag⟩) ∧
      values.intervals.toList =
        harvest.items.toList.flatMap fun tag => Frame.valueIntervals tag.values := by
  obtain ⟨harvest, hharvest, h⟩ := bind_eq_ok.mp h
  have htiles := Frame.tiles_tags hf hharvest
  have hvtiles := Frame.tiles_values htiles fun tag htag =>
    (Frame.tags_clean hf hharvest tag (Array.mem_toList_iff.mp htag)).1
  cases h
  refine ⟨harvest, _, _, hharvest, rfl, rfl, ?_, ?_⟩
  · rw [← Array.foldl_toList, ← IntervalSet.toList_foldl_add_of_tiles htags htiles, List.foldl_map]
  · rw [← Array.foldl_toList, ← IntervalSet.toList_foldl_add_of_tiles hvalues hvtiles,
      List.foldl_flatMap]
    simp only [Frame.valueIntervals, List.foldl_map]

/-- Mapping tags keeps a layout regular. -/
lemma mapTags_regular (hf : f.WellFormed) (hp : p.layout.Regular f.text)
    (htags : p.layout.tags.intervals = #[]) (hvalues : p.layout.attributeValues.intervals = #[])
    (h : p.mapTags s f = .ok q) : q.layout.Regular f.text := by
  obtain ⟨harvest, tags, values, hharvest, hlayout, -, htagList, hvalueList⟩ :=
    mapTags_lists hf htags hvalues h
  have htiles := Frame.tiles_tags hf hharvest
  have hclean : ∀ tag ∈ harvest.items.toList, _ :=
    fun tag htag => Frame.tags_clean hf hharvest tag (Array.mem_toList_iff.mp htag)
  have hvtiles := Frame.tiles_values htiles fun tag htag => (hclean tag htag).1
  rw [hlayout]
  refine { hp with
    tags := IntervalSet.regular_of_tiles htagList htiles fun iv hiv => ?_
    attributeValues := IntervalSet.regular_of_tiles hvalueList hvtiles fun iv hiv => ?_
    values := fun value hvalue => ?_ }
  · obtain ⟨tag, htag, rfl⟩ := List.mem_map.mp hiv
    exact (hclean tag htag).2.1
  · obtain ⟨tag, htag, hiv⟩ := List.mem_flatMap.mp hiv
    obtain ⟨value, hvalue, rfl⟩ := List.mem_map.mp hiv
    exact (hclean tag htag).2.2 value hvalue
  · rw [← Array.mem_toList_iff, hvalueList] at hvalue
    obtain ⟨tag, htag, hiv⟩ := List.mem_flatMap.mp hvalue
    refine ⟨⟨tag.start, tag.stop, .tag⟩, ?_, ?_⟩
    · rw [← Array.mem_toList_iff, htagList]
      exact List.mem_map_of_mem htag
    · have := (hclean tag htag).1.values.1 value hiv
      exact ⟨this.1, this.2.2⟩

end Pass

/-! ### Programs that map each sort once -/

/-- The sorts of literals that one scan maps. -/
def RepairReason.scannedOnce : List RepairReason :=
  [.quotes, .lineComments, .heredocs, .quoteOperators, .tags, .attributeValues]

/-- The sets of some sorts have no intervals yet. -/
def Layout.LacksSorts (sorts : RepairReason → Bool) (l : Layout) : Prop :=
  ∀ sort ∈ RepairReason.scannedOnce, sorts sort = true →
    ∀ set, l.sets.lookup sort = some set → set.intervals = #[]

/-- An empty layout has no intervals of any sort. -/
lemma Layout.lacksSorts_reset (sorts : RepairReason → Bool) (l : Layout) :
    l.reset.LacksSorts sorts := by
  intro sort hsort _ set hset
  simp only [RepairReason.scannedOnce, List.mem_cons, List.not_mem_nil, or_false] at hsort
  rcases hsort with rfl | rfl | rfl | rfl | rfl | rfl <;> cases hset <;> rfl

namespace Primitive

variable {s : Scene}

mutual

/-- Whether the branches of a primitive map each sort at most once. -/
def mapsOnce : Primitive → Bool
  | .ifContains _ yes no => mapsOnceAll yes && mapsOnceAll no
  | _ => true

/-- Whether a program maps each sort, other than block comments and embedded sections, at most
once. -/
def mapsOnceAll : List Primitive → Bool
  | [] => true
  | primitive :: rest =>
    mapsOnce primitive && mapsOnceAll rest &&
      RepairReason.scannedOnce.all fun sort => !(mapsSort sort primitive && mapsSortAll sort rest)

end

mutual

/-- A primitive keeps a layout regular, if nothing was mapped before of the sort that it maps.

**Proof sketch.** One case for each primitive. The scans give what they map; painting and embedding
leave these sets alone. -/
theorem run_regular : ∀ (primitive : Primitive) (opened : Bool) (f : Frame) (p q : Pass),
    f.WellFormed → f.dialect.isPlain = true → sound opened primitive = true →
      mapsOnce primitive = true → p.layout.LacksSorts (mapsSort · primitive) →
      p.layout.Regular f.text → run s primitive f p = .ok q → q.layout.Regular f.text
  | .setCondition condition, opened, f, p, q, _, _, _, _, _, hp, h => by
    simp only [run] at h
    cases h
    exact hp
  | .quotes singleLine, opened, f, p, q, hf, _, _, _, hnone, hp, h => by
    simp only [run] at h
    exact Pass.mapQuotes_regular hf hp (hnone .quotes (by decide) rfl _ rfl) h
  | .lineComments openers, opened, f, p, q, hf, _, hsound, _, hnone, hp, h => by
    simp only [run] at h
    refine Pass.mapLineComments_regular hf hp (hnone .lineComments (by decide) rfl _ rfl) ?_ h
    simpa [sound] using hsound
  | .blockComments opener closer ignoreQuoted, opened, f, p, q, _, _, _, _, _, hp, h => by
    simp only [run] at h
    obtain ⟨harvest, -, h⟩ := bind_eq_ok.mp h
    cases h
    exact { hp with }
  | .keywords words wholeWord notAfter style, opened, f, p, q, _, _, _, _, _, hp, h => by
    simp only [run] at h
    obtain ⟨c, -, h⟩ := bind_eq_ok.mp h
    cases h
    exact hp
  | .extensibleKeyword base suffixes style, opened, f, p, q, _, _, _, _, _, hp, h => by
    simp only [run] at h
    obtain ⟨c, -, h⟩ := bind_eq_ok.mp h
    cases h
    exact hp
  | .signedVariable sign ends exceptions, opened, f, p, q, _, _, _, _, _, hp, h => by
    simp only [run] at h
    obtain ⟨c, -, h⟩ := bind_eq_ok.mp h
    cases h
    exact hp
  | .marks bytes style, opened, f, p, q, _, _, _, _, _, hp, h => by
    simp only [run] at h
    obtain ⟨c, -, h⟩ := bind_eq_ok.mp h
    cases h
    exact hp
  | .heredocs, opened, f, p, q, hf, hd, _, _, hnone, hp, h => by
    simp only [run] at h
    refine Pass.mapHeredocs_regular hf hp (hnone .heredocs (by decide) rfl _ rfl) (fun r hr => ?_) h
    simpa [Dialect.isPlain, hr] using hd
  | .quoteOperators, opened, f, p, q, hf, _, _, _, hnone, hp, h => by
    simp only [run] at h
    exact Pass.mapOperators_regular hf hp (hnone .quoteOperators (by decide) rfl _ rfl) h
  | .tags, opened, f, p, q, hf, _, _, _, hnone, hp, h => by
    simp only [run] at h
    exact Pass.mapTags_regular hf hp (hnone .tags (by decide) rfl _ rfl)
      (hnone .attributeValues (by decide) rfl _ rfl) h
  | .innerSection startTag endTag element name dialect body, opened, f, p, q, _, _, _, _, _, hp,
      h => by
    simp only [run] at h
    unfold Pass.mapRegions at h
    split at h
    · cases h
      exact hp
    · obtain ⟨harvest, -, h⟩ := bind_eq_ok.mp h
      rw [← Array.foldlM_toList] at h
      rw [Pass.layout_foldlM (fun p r q hq => by simpa using Pass.layout_delegate hq) h]
      exact { hp with }
  | .embedScope name dialect body, opened, f, p, q, _, _, _, _, _, hp, h => by
    simp only [run] at h
    rw [Pass.layout_delegate h]
    exact { hp with }
  | .ifContains needle yes no, opened, f, p, q, hf, hd, hsound, honce, hnone, hp, h => by
    simp only [run] at h
    simp only [sound, Bool.and_eq_true] at hsound
    simp only [mapsOnce, Bool.and_eq_true] at honce
    simp only [mapsSort] at hnone
    split at h
    · exact runAll_regular yes opened f p q hf hd hsound.1 honce.1
        (fun sort hsort hs => hnone sort hsort (by simp [hs])) hp h
    · exact runAll_regular no opened f p q hf hd hsound.2 honce.2
        (fun sort hsort hs => hnone sort hsort (by simp [hs])) hp h

/-- **Regular sets along a run.** A program that maps each sort at most once keeps a layout regular, if
nothing was mapped before of the sorts that it maps.

**Proof sketch.** The first primitive keeps the layout regular. What the rest maps the first one does
not, so the sets of these sorts are still empty behind it. -/
theorem runAll_regular : ∀ (program : List Primitive) (opened : Bool) (f : Frame) (p q : Pass),
    f.WellFormed → f.dialect.isPlain = true → soundAll opened program = true →
      mapsOnceAll program = true → p.layout.LacksSorts (mapsSortAll · program) →
      p.layout.Regular f.text → runAll s program f p = .ok q → q.layout.Regular f.text
  | [], opened, f, p, q, _, _, _, _, _, hp, h => by
    simp only [runAll] at h
    cases h
    exact hp
  | primitive :: rest, opened, f, p, q, hf, hd, hsound, honce, hnone, hp, h => by
    simp only [soundAll, Bool.and_eq_true] at hsound
    simp only [mapsOnceAll, Bool.and_eq_true, List.all_eq_true, Bool.not_eq_true',
      Bool.and_eq_false_iff] at honce
    simp only [mapsSortAll] at hnone
    rcases eq_or_of_runAll_cons h with rfl | ⟨p₁, hp₁, h⟩
    · exact hp
    · have hp₁' := run_regular primitive opened f p p₁ hf hd hsound.1 honce.1.1
        (fun sort hsort hs => hnone sort hsort (by simp [hs])) hp hp₁
      refine runAll_regular rest _ f p₁ q hf hd hsound.2 honce.1.2 (fun sort hsort hs set hset => ?_)
        hp₁' h
      have hother : mapsSort sort primitive = false :=
        (honce.2 sort hsort).resolve_right (by simp [hs])
      rw [run_sort primitive f p p₁ hother hp₁] at hset
      exact hnone sort hsort (by simp [hs]) set hset

end

end Primitive

/-! ### Passes -/

/-- A pass of a built-in profile leaves a regular layout. -/
lemma Profile.runPass_regular {profile : Profile} (hprofile : profile ∈ builtIn) {doc : Buffer}
    (hdoc : doc.text.Valid) {start length : Nat} {detect : Bool} {layout : Layout}
    {nested : IntervalSet} {pass : Pass}
    (hpass : profile.runPass doc start length detect layout nested = .ok pass) :
    pass.layout.Regular doc.text := by
  have honce : builtIn.all (fun p => Primitive.mapsOnceAll p.program) = true := by
    decide +kernel
  have hsound := sound_of_mem_builtIn hprofile
  exact Primitive.runAll_regular profile.program true _ _ _
    (Frame.wellFormed_document hdoc profile.dialect) hsound.1 hsound.2
    (List.all_eq_true.mp honce profile hprofile) (Layout.lacksSorts_reset _ _)
    (Layout.regular_reset _ _) hpass

namespace Painter

variable {p p' : Painter} {profile : Profile} {doc doc' : Buffer} {P : Layout → Prop}

/-- What holds of all that any pass over a text maps holds of what a full pass keeps. -/
lemma full_layout (hP : ∀ (doc₁ : Buffer) (start length : Nat) (detect : Bool) (layout : Layout)
      (nested : IntervalSet) (pass : Pass), doc₁.text = doc.text →
        profile.runPass doc₁ start length detect layout nested = .ok pass → P pass.layout.commit)
    (h : p.full profile doc = .ok (p', doc')) : P p'.layout := by
  obtain ⟨pass, hpass, h⟩ := bind_eq_ok.mp h
  cases h
  exact hP doc 0 doc.size false p.layout p.nested pass rfl hpass

/-- What holds of all that any pass over a text maps holds of what is kept after an edit, which ends with
one pass or with two. -/
lemma edit_layout {s : Section} {w : EditWindow} {kind : PassKind}
    (hP : ∀ (doc₁ : Buffer) (start length : Nat) (detect : Bool) (layout : Layout)
      (nested : IntervalSet) (pass : Pass), doc₁.text = doc.text →
        profile.runPass doc₁ start length detect layout nested = .ok pass → P pass.layout.commit)
    (h : p.edit profile doc s w = .ok (kind, p', doc')) : P p'.layout := by
  rcases edit_eq_ok h with ⟨-, h⟩ | ⟨pass, hpass, hend⟩
  · exact full_layout hP h
  · rcases hend with ⟨-, -, rfl, -⟩ | ⟨reason, -, -, h⟩
    · exact hP doc _ _ _ _ _ pass rfl hpass
    · have htext : pass.canvas.text = doc.text := profile.text_runPass hpass
      exact full_layout (fun doc₁ start length detect layout nested pass h₁ =>
        hP doc₁ start length detect layout nested pass (h₁.trans htext)) h

/-- **The sets after a pass.** After any pass of a built-in profile over a valid text, full or local and
even if it was given up for a repair, the strings, the line comments, the heredocs, the quote operators,
the tags and the attribute values are non-empty parts of the document between characters, each sort in
increasing order and without overlaps. The starts of the line comments are listed in order, no line
comment contains a newline, and every attribute value lies in a tag. The same holds of what a painter
keeps after either request, and from a painter whose history is in order both requests succeed.

**Proof sketch.** Each scan maps clean intervals side by side, and each program maps each sort at most
once; keeping the pass as history changes no interval. A request ends with one pass or with two. -/
theorem pass_regular {profile : Profile} (hprofile : profile ∈ Profile.builtIn) {doc : Buffer}
    (hdoc : doc.text.Valid) :
    (∀ (start length : Nat) (detect : Bool) (layout : Layout) (nested : IntervalSet) (pass : Pass),
      profile.runPass doc start length detect layout nested = .ok pass →
        pass.layout.Regular doc.text) ∧
    (∀ (p p' : Painter) (doc' : Buffer), p.full profile doc = .ok (p', doc') →
      p'.layout.Regular doc.text) ∧
    (∀ (p : Painter) (s : Section) (w : EditWindow) (kind : PassKind) (p' : Painter) (doc' : Buffer),
      p.edit profile doc s w = .ok (kind, p', doc') → p'.layout.Regular doc.text) ∧
    (∀ p : Painter, p.layout.HistoryOrdered → (∃ r, p.full profile doc = .ok r) ∧
      ∀ (s : Section) (w : EditWindow), s.Lies doc.text → ∃ r, p.edit profile doc s w = .ok r) := by
  have hpass : ∀ (doc₁ : Buffer) (start length : Nat) (detect : Bool) (layout : Layout)
      (nested : IntervalSet) (pass : Pass), doc₁.text = doc.text →
        profile.runPass doc₁ start length detect layout nested = .ok pass →
          pass.layout.commit.Regular doc.text := by
    intro doc₁ start length detect layout nested pass htext hpass
    rw [← htext]
    exact (profile.runPass_regular hprofile (htext ▸ hdoc) hpass).commit
  refine ⟨fun start length detect layout nested pass hpass =>
      profile.runPass_regular hprofile hdoc hpass, fun p p' doc' h => full_layout hpass h,
    fun p s w kind p' doc' h => edit_layout hpass h, ?_⟩
  · intro p hp
    have hsound := Profile.sound_of_mem_builtIn hprofile
    obtain ⟨r, hr, -⟩ := full_ensures hsound hdoc hp
    refine ⟨⟨r, hr⟩, fun s w hs => ?_⟩
    obtain ⟨r, hr, -⟩ := edit_ensures hsound hdoc hp hs w
    exact ⟨r, hr⟩

/-- A heredoc, a quote operator, a string and a line comment that all start on one line. -/
theorem pass_regular_perl :
    ∃ p doc', Painter.new.full .perl
        (Buffer.new (Text.ofString "print <<X, q(\xe9), 'a'; # b\nX\n")) = .ok (p, doc') ∧
      p.layout.Regular (Text.ofString "print <<X, q(\xe9), 'a'; # b\nX\n") ∧
      (p.layout.composite.heredocs.size, p.layout.composite.operators.size, p.layout.quotes.size,
        p.layout.lineComments.size) = (2, 1, 1, 1) := by
  have hprofile : Profile.perl ∈ Profile.builtIn := by simp [Profile.builtIn]
  have hdoc : (Buffer.new (Text.ofString "print <<X, q(\xe9), 'a'; # b\nX\n")).text.Valid :=
    Text.valid_ofString _
  have hrun : (do
      let r ← Painter.new.full .perl
        (Buffer.new (Text.ofString "print <<X, q(\xe9), 'a'; # b\nX\n"))
      demand ((r.1.layout.composite.heredocs.size, r.1.layout.composite.operators.size,
        r.1.layout.quotes.size, r.1.layout.lineComments.size) = (2, 1, 1, 1)) .outOfRange) =
        .ok () := by
    decide +kernel
  obtain ⟨⟨p, doc'⟩, hfull, hrun⟩ := bind_eq_ok.mp hrun
  exact ⟨p, doc', hfull, (pass_regular hprofile hdoc).2.1 _ _ _ hfull,
    of_decide_eq_true (demand_eq_ok_iff.mp hrun)⟩

end Painter

end LexPaint
