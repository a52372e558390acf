import LexPaint.Config.Reader
import LexPaint.Proofs.Corrections
import LexPaint.Proofs.WrittenJson

set_option relaxedAutoImplicit false
set_option autoImplicit false

/-!
# Configurations that are written and read

What is written is read back: every name has a reader that knows it, every list and object is taken off
row by row, and each member of the outer object sets the field that it is named for. So a text that names
some of the settings, in any order, gives exactly these, and the text of a whole configuration gives the
configuration itself, before anything is corrected.

## Main definitions

* `Config.memberOf`: a setting as a member of the outer object.
* `Config.only`: a configuration with some of the settings of another, and the standard ones otherwise.

## Main results

* `Config.read_settings`: reading a text that names some of the settings.
* `Config.read_toJson`: reading what was written.
* `Config.load_toJson`: loading a file of what was written.
* `Config.parse_toJson`: configurations survive being written and read up to their corrections.
-/

namespace LexPaint

open Json (Takes Spelled rows)

/-! ### Names -/

/-- The reader of tags knows every language by its tag. -/
lemma Language.spelled : Spelled Language.ofTag? Language.tag where
  plain l := by cases l <;> decide
  reads := Language.ofTag?_tag

/-- The reader of names knows every style by its name. -/
lemma Style.spelled : Spelled Style.ofName? Style.name where
  plain style := by cases style <;> decide
  reads := Style.ofName?_name

/-- The reader of names knows every color by its name. -/
lemma Color.spelled : Spelled Color.ofName? Color.name where
  plain color := by cases color <;> decide
  reads := Color.ofName?_name

namespace Config

variable {c d : Config} {p : Partial} {field : Field} {fields : List Field} {rest : List Char}

/-- The reader of keys knows every field by its key. -/
lemma Field.spelled : Spelled Field.ofKey? Field.key where
  plain field := by cases field <;> decide
  reads field := by cases field <;> decide

/-! ### One setting -/

/-- The text of a setting. -/
def textOf (c : Config) : Field → List Char
  | .enabled => writtenBool c.enabled
  | .incremental => writtenBool c.incremental
  | .disabledLanguages => block '[' ']' 2 (c.disabledLanguages.map fun l => quoted l.tag)
  | .colors => block '{' '}' 2
      (c.colors.entries.map fun entry => member entry.1.name (quoted entry.2.name))

/-- A setting as a member of the outer object. -/
def memberOf (c : Config) (field : Field) : List Char :=
  member field.key (c.textOf field)

/-- What has been read, and a setting of a configuration. -/
def Partial.take (c : Config) (p : Partial) : Field → Partial
  | .enabled => { p with enabled := some c.enabled }
  | .incremental => { p with incremental := some c.incremental }
  | .disabledLanguages => { p with disabledLanguages := some c.disabledLanguages }
  | .colors => { p with colors := some c.colors.entries }

/-- A setting that is taken is there, and the others are there as before. -/
lemma Partial.has_take {other : Field} :
    (p.take c field).has other = (p.has other || other == field) := by
  cases field <;> cases other <;> simp [take, has]

/-- The text of a setting is read as that setting.

**Proof sketch.** By cases on the field: each has its own reader, and each reader takes off what was
written. -/
lemma takes_readField (c : Config) (p : Partial) (field : Field) :
    Takes (readField p field) (p.take c field) (c.textOf field) := by
  intro ws rest hws
  cases field with
  | enabled =>
    simp only [readField, textOf, Json.takes_readBool c.enabled ws rest hws]
    rfl
  | incremental =>
    simp only [readField, textOf, Json.takes_readBool c.incremental ws rest hws]
    rfl
  | disabledLanguages =>
    have htake : Takes readLanguages c.disabledLanguages (c.textOf .disabledLanguages) :=
      Json.takes_readList Language.spelled.takes_readName (fun l => ⟨_, rfl⟩) _
    simp only [readField, htake ws rest hws]
    rfl
  | colors =>
    have htake : Takes readColors c.colors.entries (c.textOf .colors) :=
      Json.takes_readObject Style.spelled Color.spelled.takes_readName _
    simp only [readField, htake ws rest hws]
    rfl

/-- A member that was not read before sets its field.

**Proof sketch.** The key is read up to its quote and names the field. Behind the colon the text of
the setting is read (`takes_readField`). -/
lemma readMember_memberOf (hnew : p.has field = false) :
    readMember p (field.key.toList ++ '"' :: ':' :: ([' '] ++ (c.textOf field ++ rest))) =
      .ok (p.take c field, rest) := by
  have hkey : Json.readChars (field.key.toList ++ '"' :: ':' :: ([' '] ++ (c.textOf field ++ rest))) =
      .ok (field.key.toList, ':' :: ([' '] ++ (c.textOf field ++ rest))) :=
    Json.readChars_plain (Field.spelled.plain field)
  have htoken : Json.readToken ':' (':' :: ([' '] ++ (c.textOf field ++ rest))) =
      .ok ([' '] ++ (c.textOf field ++ rest)) := Json.readToken_cons rfl
  have htake := takes_readField c p field [' '] rest Json.blank_space
  simp only [readMember, hkey, bind, Except.bind, String.ofList_toList, Field.spelled.reads, hnew,
    htoken, htake]
  rfl

/-! ### All settings -/

/-- Each turn takes one member off, and sets its field.

**Proof sketch.** Induction on the fields. A member that is read marks its field as known, and the
other fields are still new since no field is named twice. -/
lemma readMembersIn_rows (hfields : fields.Nodup) (hnew : ∀ field ∈ fields, p.has field = false)
    {first : Bool} {turns : Nat} (hturns : fields.length < turns) :
    readMembersIn turns first p (rows '}' 0 first (fields.map c.memberOf) ++ rest) =
      .ok (fields.foldl (Partial.take c) p, rest) := by
  induction fields generalizing first turns p with
  | nil =>
    obtain ⟨turns, rfl⟩ := Nat.exists_eq_add_of_lt hturns
    simp only [List.map_nil, readMembersIn, Json.nextKey?_nil]
    rfl
  | cons field fields ih =>
    obtain ⟨turns, rfl⟩ := Nat.exists_eq_add_of_lt hturns
    rw [List.nodup_cons] at hfields
    have hmember : c.memberOf field =
        '"' :: (field.key.toList ++ '"' :: ':' :: ([' '] ++ c.textOf field)) := Json.member_eq ..
    have hlater : ∀ other ∈ fields, (p.take c field).has other = false := by
      intro other hother
      have hne : other ≠ field := by
        rintro rfl
        exact hfields.1 hother
      simp [Partial.has_take, hnew other (by simp [hother]), hne]
    have hrest : readMembersIn (fields.length + 1 + turns) false (p.take c field)
        (rows '}' 0 false (fields.map c.memberOf) ++ rest) =
          .ok (fields.foldl (Partial.take c) (p.take c field), rest) := ih hfields.2 hlater (by omega)
    generalize hrows : rows '}' 0 false (fields.map c.memberOf) ++ rest = tail at hrest
    have hread : readMember p (field.key.toList ++ '"' :: ':' :: ([' '] ++ c.textOf field) ++ tail) =
        .ok (p.take c field, tail) := by
      rw [List.append_assoc]
      exact readMember_memberOf (hnew field (by simp))
    rw [List.length_cons, List.map_cons, hmember, readMembersIn, Json.nextKey?_cons, hrows]
    simp only [bind, Except.bind, if_true, hread, hrest]
    rfl

/-- The settings that can be named, in the order in which they are written. -/
def allFields : List Field :=
  [.enabled, .incremental, .disabledLanguages, .colors]

/-- Some of the settings of a configuration, and the standard ones otherwise. -/
def only (c : Config) (fields : List Field) : Config where
  enabled := if .enabled ∈ fields then c.enabled else standard.enabled
  incremental := if .incremental ∈ fields then c.incremental else standard.incremental
  disabledLanguages :=
    if .disabledLanguages ∈ fields then c.disabledLanguages else standard.disabledLanguages
  colors := if .colors ∈ fields then c.colors else standard.colors

/-- Each of the settings that were named has been read. -/
lemma foldl_take : fields.foldl (Partial.take c) p =
    { enabled := if .enabled ∈ fields then some c.enabled else p.enabled
      incremental := if .incremental ∈ fields then some c.incremental else p.incremental
      disabledLanguages :=
        if .disabledLanguages ∈ fields then some c.disabledLanguages else p.disabledLanguages
      colors := if .colors ∈ fields then some c.colors.entries else p.colors } := by
  induction fields generalizing p with
  | nil => simp
  | cons field fields ih =>
    rw [List.foldl_cons, ih]
    cases field <;> simp [Partial.take]

/-- What has been read from the settings named is completed by the standard ones. -/
lemma complete_foldl_take : (fields.foldl (Partial.take c) .empty).complete = c.only fields := by
  rw [foldl_take]
  apply Config.ext
  · by_cases h : Field.enabled ∈ fields <;> simp [Partial.complete, Partial.empty, only, h]
  · by_cases h : Field.incremental ∈ fields <;> simp [Partial.complete, Partial.empty, only, h]
  · by_cases h : Field.disabledLanguages ∈ fields <;> simp [Partial.complete, Partial.empty, only, h]
  · by_cases h : Field.colors ∈ fields <;>
      simp [Partial.complete, Partial.empty, only, h, Overrides.ofList_entries]

/-- **Reading settings.** A text that names some of the settings, each once and in any order, gives these
settings and the standard ones otherwise.

**Proof sketch.** The members are read in turn (`readMembersIn_rows`), with one turn to spare for the
close brace, because the text is longer than it has members. Nothing is left behind the object. -/
theorem read_settings (c : Config) (hfields : fields.Nodup) :
    read (String.ofList (block '{' '}' 0 (fields.map c.memberOf))) = .ok (c.only fields) := by
  have hconfig : readConfig (block '{' '}' 0 (fields.map c.memberOf)) = .ok (c.only fields, []) := by
    cases fields with
    | nil => rfl
    | cons field fields =>
      have hturns : (field :: fields).length <
          (rows '}' 0 true ((field :: fields).map c.memberOf)).length + 1 := by
        have hlength := Json.length_lt_rows '}' 0 true ((field :: fields).map c.memberOf)
        rw [List.length_map] at hlength
        omega
      have hmembers : readMembersIn ((rows '}' 0 true ((field :: fields).map c.memberOf)).length + 1)
          true .empty (rows '}' 0 true ((field :: fields).map c.memberOf) ++ []) =
            .ok ((field :: fields).foldl (Partial.take c) .empty, []) :=
        readMembersIn_rows hfields (fun field _ => by cases field <;> rfl) hturns
      rw [List.append_nil] at hmembers
      rw [List.map_cons] at hmembers ⊢
      rw [readConfig, Json.block_cons, Json.skipSpace_cons rfl]
      simp only [if_true, hmembers, Except.map, complete_foldl_take]
  rw [read, String.toList_ofList, hconfig]
  rfl

/-- What was written is read back as it was. -/
theorem read_toJson (c : Config) : read c.toJson = .ok c := by
  have htext : c.toJson = String.ofList (block '{' '}' 0 (allFields.map c.memberOf)) := rfl
  rw [htext, read_settings c (by decide)]
  simp [only, allFields]

/-! ### Corrections -/

/-- Parsing what was written corrects the configuration and does nothing else. -/
lemma parse_written (c : Config) : parse c.toJson = .ok c.validate := by
  rw [parse, read_toJson]
  rfl

/-- A file that holds what was written is no blank file, and gives the corrected configuration.

**Proof sketch.** The file is valid UTF-8 and starts with a brace, so it is no blank text and it is
parsed. -/
theorem load_toJson (path : String) (c : Config) :
    load path (some c.toJson.toUTF8) = .ok c.validate := by
  have htext : String.fromUTF8? c.toJson.toUTF8 = some c.toJson := by
    simp [String.fromUTF8?, c.toJson.isValidUTF8, String.fromUTF8]
  have hbrace : ∃ cs, c.toJson.toList = '{' :: cs := by
    rw [toJson, String.toList_ofList]
    exact ⟨_, rfl⟩
  have hblank : isBlankText c.toJson = false := by
    obtain ⟨cs, hcs⟩ := hbrace
    rw [isBlankText, hcs]
    rfl
  simp only [load, Option.bind_some, htext, hblank, Bool.false_eq_true, if_false, parse_written]
  rfl

/-- **Configurations survive being written and read up to their corrections.** The text of every
configuration is read as the corrected configuration, with the notices of the corrections. The order in
which its colors are written makes no difference to what is read, and a corrected configuration comes
back unchanged and without a notice.

**Proof sketch.** The members of the outer object set their fields one by one, and nothing is corrected
before all of them are read. Corrections do not depend on the order of the colors. -/
theorem parse_toJson (c : Config) :
    parse c.toJson = .ok c.validate ∧
      (∀ d : Config, d.Agrees c →
        ∃ c', parse d.toJson = .ok (c', c.validate.2) ∧ c'.Agrees c.validate.1) ∧
      ∀ d : Config, d.Agrees c.validate.1 → parse d.toJson = .ok (d, []) := by
  refine ⟨parse_written c, fun d hd => ?_, fun d hd => ?_⟩
  · obtain ⟨hcorrected, hnotices⟩ := hd.validate
    exact ⟨d.validate.1, by rw [parse_written d, ← hnotices], hcorrected⟩
  · have hsame : d.validate = (d, []) := Agrees.validate_eq_self hd
    rw [parse_written d, hsame]

/-- A language named twice, plain text among the languages and a color for plain text, written with the
colors the other way round, and the corrected configuration. -/
theorem parse_toJson_plainText :
    ∃ c d c' : Config,
      c.disabledLanguages = [.perl, .plainText, .perl] ∧
      c.colors.entries = [(.plain, .red), (.tagName, .teal), (.keyword, .blue)] ∧
      d.colors.entries = c.colors.entries.reverse ∧
      parse c.toJson = .ok c.validate ∧
      parse d.toJson =
        .ok (c', [.repeatedLanguages, .plainTextDisabled, .plainTextColored, .corrected]) ∧
      c'.Agrees c.validate.1 ∧
      c'.disabledLanguages = [.perl] ∧
      parse c'.toJson = .ok (c', []) := by
  let c : Config := ⟨true, false, [.perl, .plainText, .perl],
    ⟨[(.plain, .red), (.tagName, .teal), (.keyword, .blue)], by decide⟩⟩
  let d : Config := { c with
    colors := ⟨[(.keyword, .blue), (.tagName, .teal), (.plain, .red)], by decide⟩ }
  have hd : d.Agrees c := agrees_of_perm (c.colors.entries.reverse_perm) rfl rfl rfl
  obtain ⟨hown, hother, hcorrected⟩ := parse_toJson c
  obtain ⟨c', hparse, hagrees⟩ := hother d hd
  exact ⟨c, d, c', rfl, rfl, rfl, hown, hparse, hagrees, hagrees.disabledLanguages,
    hcorrected c' hagrees⟩

end Config

end LexPaint
