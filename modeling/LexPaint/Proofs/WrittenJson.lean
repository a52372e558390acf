import LexPaint.Config.Writer
import LexPaint.Json.Reader
import Mathlib.Tactic.Lemma

set_option relaxedAutoImplicit false
set_option autoImplicit false

/-!
# Reading what was written

A reader takes a written text off if it answers the value that was written and leaves what follows the
text, whatever that is. What a reader leaves is where the next one starts, so the readers of lists and
objects take a text off as soon as the readers of their parts do. White space in front of a text makes no
difference, because every value is read behind white space.

Members are written on lines of their own. Behind the opening bracket the text is a sequence of rows, and
each turn of a reader takes one row off: its comma, its line break and its member.

## Main definitions

* `Json.Takes`: a reader takes a text off.
* `Json.Spelled`: names that can be written between quotes as they are, and read back.
* `Json.rows`: the text of members behind the opening bracket.

## Main results

* `Json.takes_readName`: a name between quotes.
* `Json.takes_readList`, `Json.takes_readObject`: a written list and a written object.
-/

namespace LexPaint.Json

open Config (quoted lineBreak block member writtenBool)

variable {α β : Type} {ws cs rest : List Char} {c : Char}

/-! ### White space -/

/-- White space only. -/
def Blank (ws : List Char) : Prop :=
  ∀ c ∈ ws, isSpace c = true

/-- Nothing is white space. -/
lemma blank_nil : Blank [] := by
  simp [Blank]

/-- A space is white space. -/
lemma blank_space : Blank [' '] := by
  simp [Blank, isSpace]

/-- So is a line break with its indent. -/
lemma blank_lineBreak (indent : Nat) : Blank (lineBreak indent) := by
  intro c hc
  rcases List.mem_cons.mp hc with rfl | hc
  · rfl
  · rw [List.eq_of_mem_replicate hc]
    rfl

/-- A line break is skipped. -/
@[simp]
lemma skipSpace_lineBreak (indent : Nat) (cs : List Char) :
    skipSpace (lineBreak indent ++ cs) = skipSpace cs :=
  List.dropWhile_append_of_pos (blank_lineBreak indent)

/-- White space is skipped. -/
lemma skipSpace_append (h : Blank ws) (cs : List Char) : skipSpace (ws ++ cs) = skipSpace cs :=
  List.dropWhile_append_of_pos h

/-- A character that is no white space is not skipped. -/
@[simp]
lemma skipSpace_cons (h : isSpace c = false) : skipSpace (c :: cs) = c :: cs := by
  simp [skipSpace, h]

/-- The reader takes a text off that has white space in front of it, and leaves what follows. -/
def Takes (reader : Reader α) (a : α) (cs : List Char) : Prop :=
  ∀ ws rest, Blank ws → reader (ws ++ (cs ++ rest)) = .ok (a, rest)

/-- A token is read where it stands. -/
lemma readToken_cons {token : Char} (h : isSpace token = false) :
    readToken token (token :: cs) = .ok cs := by
  simp [readToken, skipSpace_cons h]

/-! ### Scalars -/

/-- A word is read where it stands. -/
lemma expect_append (es cs : List Char) : expect es (es ++ cs) = .ok cs := by
  induction es with
  | nil => rfl
  | cons e es ih => simpa [expect] using ih

/-- A written truth value is read back. -/
lemma takes_readBool (b : Bool) : Takes readBool b (writtenBool b) := by
  intro ws rest hws
  rw [readBool, skipSpace_append hws]
  cases b with
  | true =>
    have hword : expect ['r', 'u', 'e'] (['r', 'u', 'e'] ++ rest) = .ok rest := expect_append ..
    have htext : writtenBool true ++ rest = 't' :: (['r', 'u', 'e'] ++ rest) := rfl
    rw [htext, skipSpace_cons rfl]
    simp only [if_true, hword, Except.map]
  | false =>
    have hword : expect ['a', 'l', 's', 'e'] (['a', 'l', 's', 'e'] ++ rest) = .ok rest :=
      expect_append ..
    have htext : writtenBool false ++ rest = 'f' :: (['a', 'l', 's', 'e'] ++ rest) := rfl
    rw [htext, skipSpace_cons rfl]
    simp only [Char.reduceEq, if_false, if_true, hword, Except.map]

/-! ### Names -/

/-- Characters that stand for themselves between quotes. -/
def isPlain (c : Char) : Bool :=
  c != '"' && c != '\\' && decide (0x20 ≤ c.toNat)

/-- Names of plain characters, each of which is the name of what it was written for. -/
structure Spelled (ofName? : String → Option α) (name : α → String) : Prop where
  plain : ∀ a, (name a).toList.all isPlain = true
  reads : ∀ a, ofName? (name a) = some a

/-- Plain characters are read up to the quote, one in a turn. -/
lemma readCharsIn_plain {turns : Nat} (hplain : cs.all isPlain = true) (hturns : cs.length < turns) :
    readCharsIn turns (cs ++ '"' :: rest) = .ok (cs, rest) := by
  induction cs generalizing turns with
  | nil =>
    obtain ⟨turns, rfl⟩ := Nat.exists_eq_add_of_lt hturns
    simp [readCharsIn]
  | cons c cs ih =>
    obtain ⟨turns, rfl⟩ := Nat.exists_eq_add_of_lt hturns
    rw [List.all_cons, Bool.and_eq_true] at hplain
    obtain ⟨hc, hcs⟩ := hplain
    simp only [isPlain, Bool.and_eq_true, bne_iff_ne, decide_eq_true_eq] at hc
    obtain ⟨⟨hquote, hescape⟩, hcontrol⟩ := hc
    simp only [List.cons_append, readCharsIn, hquote, hescape, Nat.not_lt.mpr hcontrol, if_false]
    rw [ih hcs (by simp only [List.length_cons]; omega)]
    rfl

/-- The text has enough turns for all of them. -/
lemma readChars_plain (hplain : cs.all isPlain = true) :
    readChars (cs ++ '"' :: rest) = .ok (cs, rest) :=
  readCharsIn_plain hplain (by simp only [List.length_append]; omega)

section Names

variable {ofName? : String → Option α} {name : α → String}

/-- Behind an opening quote a name is read back. -/
lemma Spelled.readNamed (h : Spelled ofName? name) (a : α) :
    readNamed ofName? ((name a).toList ++ '"' :: rest) = .ok (a, rest) := by
  simp [Json.readNamed, readChars_plain (h.plain a), h.reads]

/-- A name between quotes is read back. -/
theorem Spelled.takes_readName (h : Spelled ofName? name) (a : α) :
    Takes (readName ofName?) a (quoted (name a)) := by
  intro ws rest hws
  have htext : quoted (name a) ++ rest = '"' :: ((name a).toList ++ '"' :: rest) := by
    simp [quoted]
  rw [readName, skipSpace_append hws, htext, skipSpace_cons rfl]
  exact h.readNamed a

end Names

/-- A member starts with the quote in front of its key. -/
lemma member_eq (key : String) (value : List Char) :
    member key value = '"' :: (key.toList ++ '"' :: ':' :: ([' '] ++ value)) := by
  simp [member, quoted]

/-! ### Rows -/

/-- The text of members behind the opening bracket, each on a line of its own and all but the first of
them behind a comma, and of the closing bracket on its line. -/
def rows (closer : Char) (indent : Nat) : Bool → List (List Char) → List Char
  | _, [] => lineBreak indent ++ [closer]
  | first, m :: ms =>
    (if first then [] else [',']) ++ lineBreak (indent + 2) ++ m ++ rows closer indent false ms

/-- A block with members is its opening bracket and their rows.

**Proof sketch.** Induction on the members behind the first one. Joining them with commas puts one in
front of each, as the rows have it. -/
lemma block_cons (opener closer : Char) (indent : Nat) (m : List Char) (ms : List (List Char)) :
    block opener closer indent (m :: ms) = opener :: rows closer indent true (m :: ms) := by
  have hrest : ∀ (m : List Char) (ms : List (List Char)),
      (',' :: lineBreak (indent + 2)).intercalate (m :: ms) ++ lineBreak indent ++ [closer] =
        m ++ rows closer indent false ms := by
    intro m ms
    induction ms generalizing m with
    | nil => simp [rows]
    | cons m' ms ih =>
      have hlater := ih m'
      simp only [List.append_assoc] at hlater
      simp [List.intercalate_cons_cons, rows, hlater]
  have hblock := hrest m ms
  simp only [List.append_assoc] at hblock
  simp [block, rows, hblock]

/-- The rows are longer than their number, so a reader with a turn for each character has enough of
them. -/
lemma length_lt_rows (closer : Char) (indent : Nat) (first : Bool) (ms : List (List Char)) :
    ms.length < (rows closer indent first ms).length := by
  induction ms generalizing first with
  | nil => simp [rows, lineBreak]
  | cons m ms ih =>
    have := ih false
    simp only [rows, List.length_append, List.length_cons, lineBreak]
    omega

variable {first : Bool} {indent : Nat} {m : List Char} {ms : List (List Char)}

/-- No element is left in front of a closing bracket. -/
lemma nextElement?_nil : nextElement? first (rows ']' indent first [] ++ rest) = .ok (false, rest) := by
  simp [nextElement?, rows, isSpace]

/-- The next element starts behind the comma and the line break of its row. -/
lemma nextElement?_cons :
    nextElement? first (rows ']' indent first (('"' :: m) :: ms) ++ rest) =
      .ok (true, '"' :: (m ++ (rows ']' indent false ms ++ rest))) := by
  cases first with
  | true => simp [nextElement?, rows, isSpace]
  | false => simp [nextElement?, rows, isSpace]

/-- No key is left in front of a closing brace. -/
lemma nextKey?_nil : nextKey? first (rows '}' indent first [] ++ rest) = .ok (false, rest) := by
  simp [nextKey?, rows, isSpace]

/-- The next key starts behind the comma, the line break and the quote of its row. -/
lemma nextKey?_cons :
    nextKey? first (rows '}' indent first (('"' :: m) :: ms) ++ rest) =
      .ok (true, m ++ (rows '}' indent false ms ++ rest)) := by
  cases first with
  | true => simp [nextKey?, rows, isSpace]
  | false => simp [nextKey?, rows, isSpace]

/-! ### Lists and objects -/

section Lists

variable {element : Reader α} {write : α → List Char}

/-- Each turn takes one element off.

**Proof sketch.** Induction on the elements. A turn finds the start of the next row and reads one
element, which leaves the other rows for one turn less. -/
lemma readElementsIn_rows (helement : ∀ a, Takes element a (write a))
    (hquote : ∀ a, ∃ m, write a = '"' :: m) {as : List α} {turns : Nat} (hturns : as.length < turns) :
    readElementsIn element turns first (rows ']' indent first (as.map write) ++ rest) =
      .ok (as, rest) := by
  induction as generalizing first turns with
  | nil =>
    obtain ⟨turns, rfl⟩ := Nat.exists_eq_add_of_lt hturns
    simp only [List.map_nil, readElementsIn, nextElement?_nil]
    rfl
  | cons a as ih =>
    obtain ⟨turns, rfl⟩ := Nat.exists_eq_add_of_lt hturns
    obtain ⟨m, hm⟩ := hquote a
    have htake := helement a [] (rows ']' indent false (as.map write) ++ rest) blank_nil
    rw [hm, List.nil_append, List.cons_append] at htake
    have hrest : readElementsIn element (as.length + 1 + turns) false
        (rows ']' indent false (as.map write) ++ rest) = .ok (as, rest) := ih (by omega)
    rw [List.length_cons, List.map_cons, hm, readElementsIn, nextElement?_cons]
    simp only [bind, Except.bind, if_true, htake, hrest, pure, Except.pure]

/-- A written list is read back if its elements are, which start with a quote.

**Proof sketch.** An empty list is written on one line and read at once. Otherwise the text behind
the bracket is a sequence of rows, and it is long enough to have a turn for each. -/
theorem takes_readList (helement : ∀ a, Takes element a (write a))
    (hquote : ∀ a, ∃ m, write a = '"' :: m) (as : List α) :
    Takes (readList element) as (block '[' ']' indent (as.map write)) := by
  intro ws rest hws
  rw [readList, skipSpace_append hws]
  cases as with
  | nil =>
    simp [block, isSpace, readElementsIn, nextElement?, bind, Except.bind, pure, Except.pure]
  | cons a as =>
    have hlength := length_lt_rows ']' indent true ((a :: as).map write)
    rw [List.map_cons, block_cons, List.cons_append, skipSpace_cons rfl, ← List.map_cons]
    refine readElementsIn_rows helement hquote ?_
    rw [List.length_map] at hlength
    rw [List.length_append]
    omega

end Lists

section Objects

variable {ofName? : String → Option α} {name : α → String} {value : Reader β} {write : β → List Char}

/-- Each turn takes one entry off.

**Proof sketch.** Induction on the entries. A turn reads the key, the colon and the value of the next
row, which leaves the other rows for one turn less. -/
lemma readEntriesIn_rows (hname : Spelled ofName? name) (hvalue : ∀ b, Takes value b (write b))
    {entries : List (α × β)} {turns : Nat} (hturns : entries.length < turns) :
    readEntriesIn (readNamed ofName?) value turns first
      (rows '}' indent first (entries.map fun e => member (name e.1) (write e.2)) ++ rest) =
        .ok (entries, rest) := by
  induction entries generalizing first turns with
  | nil =>
    obtain ⟨turns, rfl⟩ := Nat.exists_eq_add_of_lt hturns
    simp only [List.map_nil, readEntriesIn, nextKey?_nil]
    rfl
  | cons e entries ih =>
    obtain ⟨turns, rfl⟩ := Nat.exists_eq_add_of_lt hturns
    obtain ⟨a, b⟩ := e
    have hrest : readEntriesIn (readNamed ofName?) value (entries.length + 1 + turns) false
        (rows '}' indent false (entries.map fun e => member (name e.1) (write e.2)) ++ rest) =
          .ok (entries, rest) := ih (by omega)
    generalize hrows : rows '}' indent false
      (entries.map fun e => member (name e.1) (write e.2)) ++ rest = tail at hrest
    have hkey : readNamed ofName? ((name a).toList ++ '"' :: ':' :: ([' '] ++ write b) ++ tail) =
        .ok (a, ':' :: ([' '] ++ (write b ++ tail))) := by
      rw [List.append_assoc]
      exact hname.readNamed a
    have htoken : readToken ':' (':' :: ([' '] ++ (write b ++ tail))) =
        .ok ([' '] ++ (write b ++ tail)) := readToken_cons rfl
    have htake := hvalue b [' '] tail blank_space
    rw [List.length_cons, List.map_cons, member_eq, readEntriesIn, nextKey?_cons, hrows]
    simp only [bind, Except.bind, if_true, hkey, htoken, htake, hrest, pure, Except.pure]

/-- A written object is read back if its values are.

**Proof sketch.** As for lists, with `readEntriesIn_rows` for the rows of the entries. -/
theorem takes_readObject (hname : Spelled ofName? name) (hvalue : ∀ b, Takes value b (write b))
    (entries : List (α × β)) :
    Takes (readObject (readNamed ofName?) value) entries
      (block '{' '}' indent (entries.map fun e => member (name e.1) (write e.2))) := by
  intro ws rest hws
  rw [readObject, skipSpace_append hws]
  cases entries with
  | nil => simp [block, isSpace, readEntriesIn, nextKey?, bind, Except.bind, pure, Except.pure]
  | cons e entries =>
    have hlength :=
      length_lt_rows '}' indent true ((e :: entries).map fun e => member (name e.1) (write e.2))
    rw [List.length_map] at hlength
    rw [List.map_cons, block_cons, List.cons_append, skipSpace_cons rfl]
    rw [List.map_cons] at hlength
    have hturns : (e :: entries).length <
        (rows '}' indent true (member (name e.1) (write e.2) ::
          entries.map fun e => member (name e.1) (write e.2)) ++ rest).length + 1 := by
      rw [List.length_append]
      omega
    exact readEntriesIn_rows hname hvalue hturns

end Objects

end LexPaint.Json
