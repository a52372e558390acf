import LexPaint.Config.Basic
import Mathlib.Data.List.Nodup

set_option relaxedAutoImplicit false
set_option autoImplicit false

/-!
# Corrected configurations

Colors are kept in the order of their first mention, which says nothing: two configurations are the same
if they have the same switches and languages and recolor every style alike. Validation does not see the
order either, and it has nothing to say about what it has corrected. What it corrects makes no difference
to what is highlighted, or in which color.

## Main definitions

* `Config.Agrees`: configurations that differ in the order of their colors at most.
* `Config.firstMentions`: the entries of a list whose language was not mentioned before.

## Main results

* `Overrides.get?_erase`, `Overrides.ofList_entries`: overrides by what they answer.
* `Config.Agrees.validate`: configurations that agree are corrected alike.
* `Config.Agrees.validate_eq_self`: a corrected configuration is left alone.
* `Config.validate_keeps_meaning`: every answer of a configuration is the same after its corrections.
-/

namespace LexPaint

/-! ### Overrides -/

namespace Overrides

variable {o : Overrides} {s style : Style} {color : Color}

/-- A style without an answer has no entry. -/
lemma get?_eq_none_iff : o.get? style = .none ↔ style ∉ o.entries.map Prod.fst := by
  rw [get?, List.lookup_eq_none_iff, List.mem_map]
  constructor
  · rintro h ⟨e, he, rfl⟩
    simpa using h e he
  · intro h e he
    rw [bne_iff_ne]
    exact fun heq => h ⟨e, he, heq.symm⟩

/-- The entries are what the overrides answer.

**Proof sketch.** Induction on the entries. A lookup answers with the first entry of a style, and a
style has one entry at most. -/
lemma mem_entries_iff : (style, color) ∈ o.entries ↔ o.get? style = some color := by
  obtain ⟨entries, hdistinct⟩ := o
  simp only [get?]
  induction entries with
  | nil => simp
  | cons e rest ih =>
    obtain ⟨s, c⟩ := e
    rw [List.map_cons, List.nodup_cons] at hdistinct
    by_cases hs : style = s
    · subst hs
      have hrest : (style, color) ∉ rest := by
        intro hmem
        have hkey : (style, color).1 ∈ rest.map Prod.fst := List.mem_map_of_mem hmem
        exact hdistinct.1 hkey
      simp [hrest, eq_comm]
    · rw [List.mem_cons, ih hdistinct.2, List.lookup_cons, beq_false_of_ne hs]
      simp [hs]

/-- Only the style itself is left as it was. -/
lemma get?_erase : (o.erase s).get? style = if style = s then .none else o.get? style := by
  apply Option.ext
  intro color
  rw [← mem_entries_iff, erase, List.mem_filter, mem_entries_iff]
  by_cases hs : style = s <;> simp [hs]

/-- Erasing a style without an entry changes nothing. -/
lemma erase_eq_self (h : o.get? style = .none) : o.erase style = o := by
  have hkeep : o.entries.filter (fun e => e.1 != style) = o.entries := by
    apply List.filter_eq_self.mpr
    intro e he
    rw [bne_iff_ne]
    rintro rfl
    exact get?_eq_none_iff.mp h (List.mem_map_of_mem he)
  exact Overrides.ext hkeep

/-- A style without an entry gets one at the end. -/
lemma insertEntry_of_notMem {l : List (Style × Color)} (h : style ∉ l.map Prod.fst) :
    insertEntry style color l = l ++ [(style, color)] := by
  induction l with
  | nil => rfl
  | cons e rest ih =>
    rw [List.map_cons, List.mem_cons, not_or] at h
    rw [insertEntry, if_neg (Ne.symm h.1), ih h.2, List.cons_append]

/-- Entries of other styles, inserted in turn, stand in their order behind those that were there. -/
lemma entries_foldl_insert {l : List (Style × Color)}
    (h : ((o.entries ++ l).map Prod.fst).Nodup) :
    (l.foldl (fun o e => o.insert e.1 e.2) o).entries = o.entries ++ l := by
  induction l generalizing o with
  | nil => simp
  | cons e rest ih =>
    have hnew : e.1 ∉ o.entries.map Prod.fst := by
      rw [List.map_append, List.nodup_append] at h
      exact fun hmem => h.2.2 e.1 hmem e.1 (by simp) rfl
    have hentries : (o.insert e.1 e.2).entries = o.entries ++ [e] := insertEntry_of_notMem hnew
    rw [List.foldl_cons, ih (by simpa [hentries] using h), hentries]
    simp

/-- Overrides are read back from their entries. -/
theorem ofList_entries (o : Overrides) : ofList o.entries = o := by
  apply Overrides.ext
  exact entries_foldl_insert (o := none) o.distinct

end Overrides

/-! ### Languages -/

namespace Config

variable {c d : Config} {ls : List Language} {seen : List Language} {l : Language}

/-- What is kept was listed and not seen before. -/
lemma mem_firstOccurrences : l ∈ firstOccurrences seen ls ↔ l ∈ ls ∧ l ∉ seen := by
  induction ls generalizing seen with
  | nil => simp [firstOccurrences]
  | cons x rest ih =>
    rw [firstOccurrences]
    by_cases hx : x ∈ seen
    · rw [if_pos (by simpa using hx), ih]
      grind
    · rw [if_neg (by simpa using hx), List.mem_cons, ih]
      grind

/-- What is kept is kept once. -/
lemma nodup_firstOccurrences : (firstOccurrences seen ls).Nodup := by
  induction ls generalizing seen with
  | nil => simp [firstOccurrences]
  | cons x rest ih =>
    rw [firstOccurrences]
    split
    · exact ih
    · rw [List.nodup_cons, mem_firstOccurrences]
      exact ⟨fun h => h.2 (by simp), ih⟩

/-- A list without repetitions of which nothing was seen is kept as it is. -/
lemma firstOccurrences_eq_self (hls : ls.Nodup) (hseen : ∀ l ∈ ls, l ∉ seen) :
    firstOccurrences seen ls = ls := by
  induction ls generalizing seen with
  | nil => rfl
  | cons x rest ih =>
    rw [List.nodup_cons] at hls
    rw [firstOccurrences, if_neg (by simpa using hseen x (by simp)), ih hls.2]
    intro l hl hmem
    rcases List.mem_cons.mp hmem with rfl | hmem
    · exact hls.1 hl
    · exact hseen l (by simp [hl]) hmem

/-- The corrected languages have no repetition. -/
lemma nodup_correctedLanguages : (correctedLanguages ls).Nodup :=
  nodup_firstOccurrences.filter _

/-- Plain text is not among the corrected languages. -/
lemma plainText_notMem_correctedLanguages : Language.plainText ∉ correctedLanguages ls := by
  simp [correctedLanguages]

/-- The entries of a list whose place is that of the first mention of their language. -/
def firstMentions (ls : List Language) : List Language :=
  (ls.zipIdx.filter fun entry => ls.idxOf entry.1 == entry.2).map Prod.fst

/-- The entries that are kept are told by their places, counted from any number.

**Proof sketch.** Induction on the list. The head is kept at its own place, or it was seen before.
Behind it the entries with the language of the head are later mentions, and the places of the others
move by one. -/
lemma firstOccurrences_eq_places (n : Nat) :
    firstOccurrences seen ls = ((ls.zipIdx n).filter fun entry =>
      !seen.contains entry.1 && ls.idxOf entry.1 + n == entry.2).map Prod.fst := by
  induction ls generalizing seen n with
  | nil => rfl
  | cons x rest ih =>
    have hplace : ∀ entry ∈ rest.zipIdx (n + 1), entry.1 ≠ x →
        ((x :: rest).idxOf entry.1 + n == entry.2) = (rest.idxOf entry.1 + (n + 1) == entry.2) := by
      intro entry _ hne
      rw [List.idxOf_cons_ne _ hne.symm, Nat.succ_eq_add_one, Nat.add_right_comm, Nat.add_assoc]
    rw [List.zipIdx_cons, firstOccurrences]
    by_cases hx : x ∈ seen
    · rw [if_pos (by simpa using hx), ih (n + 1), List.filter_cons_of_neg (by simp [hx])]
      refine congrArg _ (List.filter_congr fun entry hentry => ?_)
      by_cases hsame : entry.1 = x
      · simp [hsame, hx]
      · rw [hplace entry hentry hsame]
    · rw [if_neg (by simpa using hx), ih (n + 1), List.filter_cons_of_pos (by simp [hx]), List.map_cons]
      refine congrArg _ (congrArg _ (List.filter_congr fun entry hentry => ?_))
      by_cases hsame : entry.1 = x
      · have hlater : n + 1 ≤ entry.2 := List.le_snd_of_mem_zipIdx hentry
        have hearly : ((x :: rest).idxOf entry.1 + n == entry.2) = false := by
          rw [hsame, List.idxOf_cons_self, beq_eq_false_iff_ne]
          omega
        rw [hearly]
        simp [hsame]
      · rw [hplace entry hentry hsame]
        simp [hsame]

/-- The corrected languages are the first mentions without plain text. -/
lemma correctedLanguages_eq : correctedLanguages ls =
    (firstMentions ls).filter fun l => l != .plainText := by
  rw [correctedLanguages, firstOccurrences_eq_places 0]
  simp [firstMentions]

example : correctedLanguages [.perl, .plainText, .r, .perl, .css, .r] = [.perl, .r, .css] := by
  decide

/-- Corrections drop plain text, and no other language that is listed. -/
lemma mem_correctedLanguages : l ∈ correctedLanguages ls ↔ l ∈ ls ∧ l ≠ .plainText := by
  simp [correctedLanguages, mem_firstOccurrences]

/-! ### Configurations -/

/-- Two configurations say the same, whatever the order of their colors. -/
structure Agrees (c d : Config) : Prop where
  enabled : c.enabled = d.enabled
  incremental : c.incremental = d.incremental
  disabledLanguages : c.disabledLanguages = d.disabledLanguages
  colors : ∀ style, c.colors.get? style = d.colors.get? style

/-- Colors in another order are the same colors. -/
lemma agrees_of_perm (hcolors : c.colors.entries.Perm d.colors.entries)
    (henabled : c.enabled = d.enabled) (hincremental : c.incremental = d.incremental)
    (hlanguages : c.disabledLanguages = d.disabledLanguages) : c.Agrees d := by
  refine ⟨henabled, hincremental, hlanguages, fun style => Option.ext fun color => ?_⟩
  rw [← Overrides.mem_entries_iff, ← Overrides.mem_entries_iff]
  exact hcolors.mem_iff

/-- Configurations that agree still do so when both are corrected. -/
lemma Agrees.corrected (h : c.Agrees d) : c.corrected.Agrees d.corrected where
  enabled := h.enabled
  incremental := h.incremental
  disabledLanguages := congrArg correctedLanguages h.disabledLanguages
  colors := by
    intro style
    simp only [Config.corrected, Overrides.get?_erase, h.colors]

/-- Configurations that agree have the same issues. -/
lemma Agrees.issues (h : c.Agrees d) : c.issues = d.issues := by
  unfold Config.issues Overrides.contains
  rw [h.disabledLanguages, h.colors]

/-- Configurations that agree are corrected alike, with the same notices. -/
theorem Agrees.validate (h : c.Agrees d) :
    c.validate.1.Agrees d.validate.1 ∧ c.validate.2 = d.validate.2 := by
  refine ⟨h.corrected, ?_⟩
  simp only [Config.validate, h.issues]

/-- What has been corrected is left alone, without a notice.

**Proof sketch.** Corrected languages have no repetition and no plain text, and corrected colors have
none for plain text. So there is no issue, and correcting again changes nothing. -/
theorem Agrees.validate_eq_self (h : c.Agrees d.corrected) : c.validate = (c, []) := by
  have hlanguages : c.disabledLanguages = correctedLanguages d.disabledLanguages :=
    h.disabledLanguages
  have hcolors : c.colors.get? .plain = none := by
    rw [h.colors, Config.corrected, Overrides.get?_erase, if_pos rfl]
  have honce : firstOccurrences [] c.disabledLanguages = c.disabledLanguages := by
    rw [hlanguages]
    exact firstOccurrences_eq_self nodup_correctedLanguages (by simp)
  have hplain : Language.plainText ∉ c.disabledLanguages := by
    rw [hlanguages]
    exact plainText_notMem_correctedLanguages
  have hissues : c.issues = [] := by
    simp [Config.issues, honce, hplain, Overrides.contains, hcolors]
  have hcorrected : c.corrected = c := by
    have hfilter : c.disabledLanguages.filter (fun l => l != .plainText) = c.disabledLanguages := by
      apply List.filter_eq_self.mpr
      intro l hl
      rw [bne_iff_ne]
      rintro rfl
      exact hplain hl
    simp only [Config.corrected, correctedLanguages, honce, hfilter, Overrides.erase_eq_self hcolors]
  rw [Config.validate, hissues, hcorrected]
  rfl

/-! ### What corrections leave alone -/

/-- No language is switched on or off by the corrections.

**Proof sketch.** Corrections change the listed languages for plain text only, and plain text is
never highlighted. -/
lemma isLanguageEnabled_corrected : c.corrected.isLanguageEnabled l = c.isLanguageEnabled l := by
  by_cases hl : l = .plainText
  · subst hl
    simp [isLanguageEnabled, Language.isHighlighted]
  · have hkept : c.corrected.disabledLanguages.contains l = c.disabledLanguages.contains l := by
      rw [Bool.eq_iff_iff, List.contains_iff_mem, List.contains_iff_mem]
      exact mem_correctedLanguages.trans (and_iff_left hl)
    rw [isLanguageEnabled, isLanguageEnabled, hkept]
    rfl

/-- Plain text gets its own color back, and no other style changes its color. -/
lemma theme_corrected {style : Style} : c.corrected.theme.color style =
    if style = .plain then Theme.standard.color .plain else c.theme.color style := by
  simp only [theme, Theme.load, corrected, Overrides.get?_erase]
  by_cases hs : style = .plain <;> simp [hs]

/-- **Corrections keep the meaning.** After validation the languages are the first mentions of the list
that was there, in its order and without plain text, and plain text has no color of its own while every
other style has the one that it had, or none. Each language is highlighted if it was before, each style
other than plain text is shown as before, the switches are as they were, and to validate once more changes
nothing and finds nothing to remark.

**Proof sketch.** Whether a language was mentioned before is told by the place of its first mention. A
language that drops out is mentioned elsewhere, or is plain text, which is never highlighted. -/
theorem validate_keeps_meaning (c : Config) :
    c.validate.1.disabledLanguages =
        (firstMentions c.disabledLanguages).filter (fun l => l != .plainText) ∧
      (∀ style, c.validate.1.colors.get? style =
        if style = .plain then none else c.colors.get? style) ∧
      (∀ l, c.validate.1.isLanguageEnabled l = c.isLanguageEnabled l) ∧
      (∀ style, c.validate.1.theme.color style =
        if style = .plain then Theme.standard.color .plain else c.theme.color style) ∧
      c.validate.1.enabled = c.enabled ∧
      c.validate.1.incremental = c.incremental ∧
      c.validate.1.validate = (c.validate.1, []) := by
  refine ⟨correctedLanguages_eq, fun style => Overrides.get?_erase,
    fun l => isLanguageEnabled_corrected, fun style => theme_corrected, rfl, rfl, ?_⟩
  have hself : c.corrected.Agrees c.corrected := ⟨rfl, rfl, rfl, fun _ => rfl⟩
  exact hself.validate_eq_self

end Config

end LexPaint
