import LexPaint.Style
/-!
# Themes

A theme gives every style a color. Themes are changed by overrides, each of which recolors one
style; of two overrides for one style the later wins.

## Main definitions

* `Color`: the named colors, with the terminal codes closest to them.
* `Theme`: a color for every style; `Theme.standard` is the one to start from.
* `Overrides`: colors for some of the styles.
-/

namespace LexPaint

/-- Named display colors. -/
inductive Color where
  | black
  | red
  | green
  | blue
  | purple
  | gray
  | orange
  | teal
deriving DecidableEq, Repr, Inhabited

namespace Color

/-- Every color. -/
def all : List Color :=
  [black, red, green, blue, purple, gray, orange, teal]

/-- The name of a color in a configuration. -/
def name : Color → String
  | black => "black"
  | red => "red"
  | green => "green"
  | blue => "blue"
  | purple => "purple"
  | gray => "gray"
  | orange => "orange"
  | teal => "teal"

/-- The color with a given name. -/
def ofName? (s : String) : Option Color :=
  all.find? (fun color => color.name == s)

/-- The terminal's foreground code closest to the color. -/
def ansiCode : Color → String
  | black => "39"
  | red => "31"
  | green => "32"
  | blue => "34"
  | purple => "35"
  | gray => "90"
  | orange => "33"
  | teal => "36"

/-- The name of a color names this color. -/
theorem ofName?_name (color : Color) : ofName? color.name = some color := by
  cases color <;> decide

end Color

/-- Colors for some of the styles, each style at most once, in the order of first mention. -/
@[ext]
structure Overrides where
  /-- The recolored styles with their colors. -/
  entries : List (Style × Color)
  /-- No style is recolored twice. -/
  distinct : (entries.map Prod.fst).Nodup
deriving DecidableEq

namespace Overrides

/-- No overrides. -/
def none : Overrides := ⟨[], by simp⟩

instance : Inhabited Overrides := ⟨none⟩

/-- The color that the overrides give a style. -/
def get? (o : Overrides) (style : Style) : Option Color :=
  o.entries.lookup style

/-- Recolors one style in a list of entries, or appends it. -/
def insertEntry (style : Style) (color : Color) : List (Style × Color) → List (Style × Color)
  | [] => [(style, color)]
  | (s, c) :: rest =>
    if s = style then (s, color) :: rest else (s, c) :: insertEntry style color rest

/-- The styles that are recolored after an insertion are the new one and those from before. -/
theorem mem_insertEntry_keys {style s : Style} {color : Color} {l : List (Style × Color)} :
    s ∈ (insertEntry style color l).map Prod.fst ↔ s = style ∨ s ∈ l.map Prod.fst := by
  induction l with
  | nil => simp [insertEntry]
  | cons e rest ih =>
    obtain ⟨s', c'⟩ := e
    simp only [insertEntry]
    split
    · rename_i h
      subst h
      simp
    · simp only [List.map_cons, List.mem_cons, ih]
      constructor
      · rintro (h | h | h) <;> simp [h]
      · rintro (h | h | h) <;> simp [h]

/-- An insertion mentions no style twice. -/
theorem nodup_insertEntry {style : Style} {color : Color} {l : List (Style × Color)}
    (h : (l.map Prod.fst).Nodup) : ((insertEntry style color l).map Prod.fst).Nodup := by
  induction l with
  | nil => simp [insertEntry]
  | cons e rest ih =>
    obtain ⟨s', c'⟩ := e
    simp only [List.map_cons, List.nodup_cons] at h
    simp only [insertEntry]
    split
    · simpa using h
    · rename_i hne
      simp only [List.map_cons, List.nodup_cons, mem_insertEntry_keys]
      exact ⟨fun hmem => hmem.elim hne h.1, ih h.2⟩

/-- Recolors one style; an earlier color for it is replaced in its place. -/
def insert (o : Overrides) (style : Style) (color : Color) : Overrides :=
  ⟨insertEntry style color o.entries, nodup_insertEntry o.distinct⟩

/-- Leaves a style as it was. -/
def erase (o : Overrides) (style : Style) : Overrides where
  entries := o.entries.filter (fun e => e.1 != style)
  distinct := o.distinct.sublist ((List.filter_sublist).map Prod.fst)

/-- Whether a style is recolored. -/
def contains (o : Overrides) (style : Style) : Bool :=
  (o.get? style).isSome

/-- The overrides of a list in which later entries win. -/
def ofList (l : List (Style × Color)) : Overrides :=
  l.foldl (fun o e => o.insert e.1 e.2) none

end Overrides

/-- A color for every style. -/
structure Theme where
  /-- The color of a style. -/
  color : Style → Color

namespace Theme

/-- The theme in use when nothing is overridden. -/
def standard : Theme where
  color
    | .plain => .black
    | .keyword => .red
    | .bracket => .orange
    | .brace => .blue
    | .variableName => .teal
    | .string => .green
    | .comment => .gray
    | .tagName => .blue
    | .attributeName => .red
    | .attributeValue => .purple
    | .embeddedMarker => .orange

instance : Inhabited Theme := ⟨standard⟩

/-- Recolors one style. -/
def set (t : Theme) (style : Style) (color : Color) : Theme :=
  ⟨fun s => if s = style then color else t.color s⟩

/-- Applies overrides on top of a theme. -/
def load (t : Theme) (o : Overrides) : Theme :=
  ⟨fun s => (o.get? s).getD (t.color s)⟩

/-- The theme as a list, in display order of the styles. -/
def toList (t : Theme) : List (Style × Color) :=
  Style.all.map (fun s => (s, t.color s))

/-- The theme as overrides that recolor every style. -/
def exported (t : Theme) : Overrides :=
  Overrides.ofList t.toList

/-- Whether two themes agree on every style. -/
def agree (t u : Theme) : Bool :=
  t.toList == u.toList

end Theme

end LexPaint
