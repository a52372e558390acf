import LexPaint.Proofs.PassFrame

set_option relaxedAutoImplicit false
set_option autoImplicit false

/-!
# Which sets a primitive changes

Every primitive maps literals of one sort, or none at all, and leaves the sets of the other sorts as
they are. In a full pass no primitive is skipped, so a set looks in the end as the last primitive
that maps its sort has left it.

## Main definitions

* `Primitive.mapsSort`, `Primitive.mapsSortAll`: whether a program may map literals of a sort.

## Main results

* `Primitive.runAll_sort`: a program that does not map a sort leaves the set of that sort alone.
* `Primitive.runAll_nested`: a program that embeds nothing leaves embedded sections alone.
* `Primitive.runAll_split`: a full pass is the passes over the parts of its program.
-/

namespace LexPaint

namespace Primitive

mutual

/-- Whether a primitive may map literals of a sort. -/
def mapsSort (sort : RepairReason) : Primitive → Bool
  | .quotes _ => sort == .quotes
  | .lineComments _ => sort == .lineComments
  | .blockComments .. => sort == .blockComments
  | .heredocs => sort == .heredocs
  | .quoteOperators => sort == .quoteOperators
  | .tags => sort == .tags || sort == .attributeValues
  | .innerSection .. => sort == .embeddedSections
  | .embedScope .. => sort == .embeddedSections
  | .ifContains _ yes no => mapsSortAll sort yes || mapsSortAll sort no
  | .setCondition _ | .keywords .. | .extensibleKeyword .. | .signedVariable .. | .marks .. => false

/-- Whether a program may map literals of a sort. -/
def mapsSortAll (sort : RepairReason) : List Primitive → Bool
  | [] => false
  | primitive :: rest => mapsSort sort primitive || mapsSortAll sort rest

end

end Primitive

namespace Pass

variable {s : Scene} {f : Frame} {p q : Pass} {sort : RepairReason}

/-- Mapping strings leaves all other sorts alone. -/
lemma mapQuotes_sort {singleLine : Bool} (h : p.mapQuotes s f singleLine = .ok q)
    (hsort : sort ≠ .quotes) : q.layout.sets.lookup sort = p.layout.sets.lookup sort := by
  obtain ⟨_, -, h⟩ := bind_eq_ok.mp h
  obtain ⟨harvest, -, h⟩ := bind_eq_ok.mp h
  cases h
  rw [layout_repairIf]
  cases sort <;> first | rfl | exact absurd rfl hsort

/-- Mapping line comments leaves all other sorts alone. -/
lemma mapLineComments_sort {marks : List Mark} (h : p.mapLineComments s f marks = .ok q)
    (hsort : sort ≠ .lineComments) : q.layout.sets.lookup sort = p.layout.sets.lookup sort := by
  obtain ⟨harvest, -, h⟩ := bind_eq_ok.mp h
  cases h
  rw [layout_repairIf]
  cases sort <;> first | rfl | exact absurd rfl hsort

/-- Mapping block comments leaves all other sorts alone. -/
lemma mapBlockComments_sort {opener closer : Mark} {ignoreQuoted : Bool}
    (h : p.mapBlockComments s f opener closer ignoreQuoted = .ok q)
    (hsort : sort ≠ .blockComments) : q.layout.sets.lookup sort = p.layout.sets.lookup sort := by
  obtain ⟨harvest, -, h⟩ := bind_eq_ok.mp h
  cases h
  cases sort <;> first | rfl | exact absurd rfl hsort

/-- Mapping heredocs leaves all other sorts alone. -/
lemma mapHeredocs_sort (h : p.mapHeredocs s f = .ok q) (hsort : sort ≠ .heredocs) :
    q.layout.sets.lookup sort = p.layout.sets.lookup sort := by
  rcases mapHeredocs_cases h with ⟨-, rfl⟩ | ⟨rules, harvest, set, changed, -, -, -, -, rfl⟩
  · rfl
  · rw [layout_repairIf]
    cases sort <;> first | rfl | exact absurd rfl hsort

/-- Mapping quote operators leaves all other sorts alone. -/
lemma mapOperators_sort (h : p.mapOperators s f = .ok q) (hsort : sort ≠ .quoteOperators) :
    q.layout.sets.lookup sort = p.layout.sets.lookup sort := by
  rcases mapOperators_cases h with ⟨-, rfl⟩ | ⟨rules, harvest, set, changed, -, -, -, rfl⟩
  · rfl
  · rw [layout_repairIf]
    cases sort <;> first | rfl | exact absurd rfl hsort

/-- Mapping tags leaves all sorts other than tags and values alone. -/
lemma mapTags_sort (h : p.mapTags s f = .ok q) (htags : sort ≠ .tags)
    (hvalues : sort ≠ .attributeValues) :
    q.layout.sets.lookup sort = p.layout.sets.lookup sort := by
  obtain ⟨harvest, -, h⟩ := bind_eq_ok.mp h
  cases h
  cases sort <;> first | rfl | exact absurd rfl htags | exact absurd rfl hvalues

/-- Lexing a part of the scope leaves the layout of the scope alone. -/
lemma layout_delegate {lo hi : Nat} {dialect : Dialect} {body : Frame → Pass → Checked Pass}
    (h : p.delegate f lo hi dialect body = .ok q) : q.layout = p.layout := by
  obtain ⟨inner, -, h⟩ := bind_eq_ok.mp h
  obtain ⟨r, -, h⟩ := bind_eq_ok.mp h
  cases h
  rfl

/-- Steps that leave the layout alone do so one after another. -/
lemma layout_foldlM {α : Type} {g : Pass → α → Checked Pass}
    (hg : ∀ p x q, g p x = .ok q → q.layout = p.layout) {xs : List α}
    (h : xs.foldlM g p = .ok q) : q.layout = p.layout :=
  foldlM_induction (I := fun q => q.layout = p.layout)
    (fun x _ q q' hq hx => (hg q x q' hx).trans hq) rfl h

/-- Mapping embedded sections leaves all other sorts alone. -/
lemma mapRegions_sort {startTag endTag : Mark} {element : Bool} {name : String}
    {dialect : Dialect} {body : Frame → Pass → Checked Pass}
    (h : p.mapRegions s f startTag endTag element name dialect body = .ok q)
    (hsort : sort ≠ .embeddedSections) :
    q.layout.sets.lookup sort = p.layout.sets.lookup sort := by
  unfold mapRegions at h
  split at h
  · cases h
    rfl
  · obtain ⟨harvest, -, h⟩ := bind_eq_ok.mp h
    rw [← Array.foldlM_toList] at h
    have hlayout := layout_foldlM ?_ h
    · rw [hlayout]
      cases sort <;> first | rfl | exact absurd rfl hsort
    · intro p₁ r p₂ hregion
      have hsame := layout_delegate hregion
      exact hsame

/-- Handing a scope over leaves all sorts other than embedded sections alone. -/
lemma embedScope_sort {name : String} {dialect : Dialect} {body : Frame → Pass → Checked Pass}
    (h : p.embedScope f name dialect body = .ok q) (hsort : sort ≠ .embeddedSections) :
    q.layout.sets.lookup sort = p.layout.sets.lookup sort := by
  rw [layout_delegate h]
  cases sort <;> first | rfl | exact absurd rfl hsort

end Pass

namespace Primitive

variable {s : Scene} {sort : RepairReason}

mutual

/-- A primitive that does not map a sort leaves the set of that sort alone.

**Proof sketch.** By cases on the primitive. One that chooses between two programs does so for both
of them. -/
theorem run_sort : ∀ (primitive : Primitive) (f : Frame) (p q : Pass),
    mapsSort sort primitive = false → run s primitive f p = .ok q →
      q.layout.sets.lookup sort = p.layout.sets.lookup sort
  | .setCondition condition, f, p, q, _, h => by
    simp only [run] at h
    cases h
    rfl
  | .quotes singleLine, f, p, q, hs, h => by
    simp only [run] at h
    exact Pass.mapQuotes_sort h (by simpa [mapsSort] using hs)
  | .lineComments openers, f, p, q, hs, h => by
    simp only [run] at h
    exact Pass.mapLineComments_sort h (by simpa [mapsSort] using hs)
  | .blockComments opener closer ignoreQuoted, f, p, q, hs, h => by
    simp only [run] at h
    exact Pass.mapBlockComments_sort h (by simpa [mapsSort] using hs)
  | .keywords words wholeWord notAfter style, f, p, q, _, h => by
    simp only [run] at h
    obtain ⟨c, -, h⟩ := bind_eq_ok.mp h
    cases h
    rfl
  | .extensibleKeyword base suffixes style, f, p, q, _, h => by
    simp only [run] at h
    obtain ⟨c, -, h⟩ := bind_eq_ok.mp h
    cases h
    rfl
  | .signedVariable sign ends exceptions, f, p, q, _, h => by
    simp only [run] at h
    obtain ⟨c, -, h⟩ := bind_eq_ok.mp h
    cases h
    rfl
  | .marks bytes style, f, p, q, _, h => by
    simp only [run] at h
    obtain ⟨c, -, h⟩ := bind_eq_ok.mp h
    cases h
    rfl
  | .heredocs, f, p, q, hs, h => by
    simp only [run] at h
    exact Pass.mapHeredocs_sort h (by simpa [mapsSort] using hs)
  | .quoteOperators, f, p, q, hs, h => by
    simp only [run] at h
    exact Pass.mapOperators_sort h (by simpa [mapsSort] using hs)
  | .tags, f, p, q, hs, h => by
    simp only [run] at h
    simp only [mapsSort, Bool.or_eq_false_iff, beq_eq_false_iff_ne] at hs
    exact Pass.mapTags_sort h hs.1 hs.2
  | .innerSection startTag endTag element name dialect body, f, p, q, hs, h => by
    simp only [run] at h
    exact Pass.mapRegions_sort h (by simpa [mapsSort] using hs)
  | .embedScope name dialect body, f, p, q, hs, h => by
    simp only [run] at h
    exact Pass.embedScope_sort h (by simpa [mapsSort] using hs)
  | .ifContains needle yes no, f, p, q, hs, h => by
    simp only [run] at h
    simp only [mapsSort, Bool.or_eq_false_iff] at hs
    split at h
    · exact runAll_sort yes f p q hs.1 h
    · exact runAll_sort no f p q hs.2 h

/-- **Frame of a sort.** A program that does not map a sort leaves the set of that sort alone.

**Proof sketch.** Induction on the program. -/
theorem runAll_sort : ∀ (program : List Primitive) (f : Frame) (p q : Pass),
    mapsSortAll sort program = false → runAll s program f p = .ok q →
      q.layout.sets.lookup sort = p.layout.sets.lookup sort
  | [], f, p, q, _, h => by
    simp only [runAll] at h
    cases h
    rfl
  | primitive :: rest, f, p, q, hs, h => by
    simp only [mapsSortAll, Bool.or_eq_false_iff] at hs
    rcases eq_or_of_runAll_cons h with rfl | ⟨p₁, hp₁, h⟩
    · rfl
    · exact (runAll_sort rest f p₁ q hs.2 h).trans (run_sort primitive f p p₁ hs.1 hp₁)

end

section Sets

variable {primitive : Primitive} {f : Frame} {p q : Pass} (h : run s primitive f p = .ok q)

include h

/-- What maps no block comments leaves their set alone. -/
lemma blockComments_of_run (hsort : mapsSort .blockComments primitive = false) :
    q.layout.blockComments = p.layout.blockComments :=
  Option.some.inj (run_sort primitive f p q hsort h)

/-- What maps no tags leaves their set alone. -/
lemma tags_of_run (hsort : mapsSort .tags primitive = false) : q.layout.tags = p.layout.tags :=
  Option.some.inj (run_sort primitive f p q hsort h)

/-- What maps no values leaves their set alone. -/
lemma attributeValues_of_run (hsort : mapsSort .attributeValues primitive = false) :
    q.layout.attributeValues = p.layout.attributeValues :=
  Option.some.inj (run_sort primitive f p q hsort h)

/-- What maps no embedded sections leaves their set alone. -/
lemma embedded_of_run (hsort : mapsSort .embeddedSections primitive = false) :
    q.layout.embedded = p.layout.embedded :=
  Option.some.inj (run_sort primitive f p q hsort h)

end Sets

/-- Whether a primitive lexes its scope itself and embeds nothing. -/
def embedsNothing : Primitive → Bool
  | .innerSection .. | .embedScope .. | .ifContains .. => false
  | _ => true

/-- A primitive that embeds nothing leaves what was mapped in embedded sections.

**Proof sketch.** By cases on the primitive. -/
lemma run_nested {primitive : Primitive} (hflat : embedsNothing primitive = true) {f : Frame}
    {p q : Pass} (h : run s primitive f p = .ok q) : q.nested = p.nested := by
  cases primitive with
  | setCondition condition =>
    simp only [run] at h
    cases h
    rfl
  | quotes singleLine =>
    simp only [run] at h
    obtain ⟨_, -, h⟩ := bind_eq_ok.mp h
    obtain ⟨harvest, -, h⟩ := bind_eq_ok.mp h
    cases h
    exact Pass.nested_repairIf _ _
  | lineComments marks =>
    simp only [run] at h
    obtain ⟨harvest, -, h⟩ := bind_eq_ok.mp h
    cases h
    exact Pass.nested_repairIf _ _
  | blockComments opener closer ignoreQuoted =>
    simp only [run] at h
    obtain ⟨harvest, -, h⟩ := bind_eq_ok.mp h
    cases h
    rfl
  | heredocs =>
    simp only [run] at h
    rcases Pass.mapHeredocs_cases h with ⟨-, rfl⟩ | ⟨rules, harvest, set, changed, -, -, -, -, rfl⟩
    · rfl
    · exact Pass.nested_repairIf _ _
  | quoteOperators =>
    simp only [run] at h
    rcases Pass.mapOperators_cases h with ⟨-, rfl⟩ | ⟨rules, harvest, set, changed, -, -, -, rfl⟩
    · rfl
    · exact Pass.nested_repairIf _ _
  | keywords | extensibleKeyword | signedVariable | marks | tags =>
    simp only [run] at h
    obtain ⟨_, -, h⟩ := bind_eq_ok.mp h
    cases h
    rfl
  | innerSection | embedScope | ifContains => cases hflat

/-- A program that embeds nothing leaves what was mapped in embedded sections.

**Proof sketch.** Induction on the program. -/
lemma runAll_nested {program : List Primitive} (hflat : program.all embedsNothing = true) {f : Frame}
    {p q : Pass} (h : runAll s program f p = .ok q) : q.nested = p.nested := by
  induction program generalizing p with
  | nil =>
    simp only [runAll] at h
    cases h
    rfl
  | cons primitive rest ih =>
    rw [List.all_cons, Bool.and_eq_true] at hflat
    rcases eq_or_of_runAll_cons h with rfl | ⟨p₁, hp₁, h⟩
    · rfl
    · exact (ih hflat.2 h).trans (run_nested hflat.1 hp₁)

/-- **A full pass is the passes over the parts of its program.** Where changes are not looked for, no
primitive asks for a full pass, so none is skipped. -/
theorem runAll_split {before after : List Primitive} {primitive : Primitive} {f : Frame}
    {p q : Pass} (hdetect : s.detect = false) (hp : p.repair = none)
    (h : runAll s (before ++ primitive :: after) f p = .ok q) :
    ∃ p₁ p₂, runAll s before f p = .ok p₁ ∧ run s primitive f p₁ = .ok p₂ ∧
      runAll s after f p₂ = .ok q ∧ p₁.repair = none ∧ p₂.repair = none := by
  rw [runAll_append] at h
  obtain ⟨p₁, hp₁, h⟩ := bind_eq_ok.mp h
  have hquiet : p₁.repair = none := ((runAll_continues before f p p₁ hp₁).repair hdetect).trans hp
  rw [runAll_cons hquiet] at h
  obtain ⟨p₂, hp₂, h⟩ := bind_eq_ok.mp h
  exact ⟨p₁, p₂, hp₁, hp₂, h, hquiet,
    ((run_continues primitive f p₁ p₂ hp₂).repair hdetect).trans hquiet⟩

end Primitive

end LexPaint
