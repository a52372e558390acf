import LexPaint.Fault
/-!
# Reading JSON

Readers take the front of a text off and leave the rest. A reader that expects a certain kind of
value fails in one of three ways: the text is not JSON, the value is of another kind, or the text
ends too early. The first failure on the way from left to right counts, so a value of another kind
is itself read as far as its first scalar before it is complained about.

## Main definitions

* `ReadError`: the three ways to fail.
* `Json.Reader`: a function that takes the front of a text off.
* `Json.readBool`, `Json.readName`: a truth value, and one of several names.
* `Json.nextElement?`, `Json.nextKey?`: stepping through a list and through an object.
* `Json.skipValue`: any value, with only its form checked.

## Implementation notes

Loops over a text are bounded by its length, since every turn takes at least one character off.
-/

namespace LexPaint

/-- Why a text could not be read. -/
inductive ReadError where
  /-- The text is not JSON. -/
  | malformed
  /-- The text is JSON so far, but not of the expected kind. -/
  | mismatch
  /-- The text ends too early. -/
  | ended
deriving DecidableEq, Repr, Inhabited

namespace Json

/-- A function that takes a value off the front of a text and leaves the rest. -/
abbrev Reader (α : Type) : Type := List Char → Except ReadError (α × List Char)

/-- The characters between tokens: space, tab, line feed and carriage return. -/
def isSpace (c : Char) : Bool :=
  c == ' ' || c == '\t' || c == '\n' || c == '\r'

/-- The text behind the white space at its front. -/
def skipSpace (cs : List Char) : List Char :=
  cs.dropWhile isSpace

/-- Takes the given characters off, one by one. -/
def expect : List Char → List Char → Except ReadError (List Char)
  | [], cs => .ok cs
  | _ :: _, [] => .error .ended
  | e :: es, c :: cs => if c = e then expect es cs else .error .malformed

/-! ### Strings -/

/-- The value of a hexadecimal digit. -/
def hexDigit? (c : Char) : Option Nat :=
  if '0' ≤ c ∧ c ≤ '9' then some (c.toNat - 0x30)
  else if 'a' ≤ c ∧ c ≤ 'f' then some (c.toNat - 0x61 + 10)
  else if 'A' ≤ c ∧ c ≤ 'F' then some (c.toNat - 0x41 + 10)
  else none

/-- The value of four hexadecimal digits. -/
def hexValue? (a b c d : Char) : Option Nat := do
  let a ← hexDigit? a
  let b ← hexDigit? b
  let c ← hexDigit? c
  let d ← hexDigit? d
  some (((a * 16 + b) * 16 + c) * 16 + d)

/-- The number of UTF-8 bytes of a text. -/
def byteCount (cs : List Char) : Nat :=
  cs.foldl (fun count c => count + c.utf8Size) 0

/-- Takes four hexadecimal digits off. A text of fewer than four bytes ends too early. -/
def readHex : Reader Nat
  | a :: b :: c :: d :: rest =>
    match hexValue? a b c d with
    | some n => .ok (n, rest)
    | none => .error .malformed
  | cs => if byteCount cs < 4 then .error .ended else .error .malformed

/-- What a one-letter escape stands for. -/
def escapedChar? (c : Char) : Option Char :=
  if c = '"' ∨ c = '\\' ∨ c = '/' then some c
  else if c = 'b' then some (Char.ofNat 0x08)
  else if c = 'f' then some (Char.ofNat 0x0C)
  else if c = 'n' then some '\n'
  else if c = 'r' then some '\r'
  else if c = 't' then some '\t'
  else none

/-- Takes the second half of a character off that was escaped as two halves. -/
def readLowHalf (high : Nat) : Reader Char
  | [] => .error .ended
  | c :: cs =>
    if c = '\\' then
      match cs with
      | [] => .error .ended
      | u :: cs =>
        if u = 'u' then
          match readHex cs with
          | .error e => .error e
          | .ok (low, rest) =>
            if 0xDC00 ≤ low ∧ low ≤ 0xDFFF then
              .ok (Char.ofNat ((high - 0xD800) * 0x400 + (low - 0xDC00) + 0x10000), rest)
            else .error .malformed
        else .error .malformed
    else .error .malformed

/-- Takes the character of a `\u` escape off, behind the `u`. -/
def readUnicode : Reader Char := fun cs =>
  match readHex cs with
  | .error e => .error e
  | .ok (n, rest) =>
    if 0xDC00 ≤ n ∧ n ≤ 0xDFFF then .error .malformed
    else if 0xD800 ≤ n ∧ n ≤ 0xDBFF then readLowHalf n rest
    else .ok (Char.ofNat n, rest)

/-- Takes an escape off, behind its backslash. -/
def readEscape : Reader Char
  | [] => .error .ended
  | c :: cs =>
    if c = 'u' then readUnicode cs
    else
      match escapedChar? c with
      | some e => .ok (e, cs)
      | none => .error .malformed

/-- Takes an escape off, behind its backslash, with only its form checked. -/
def skipEscape : List Char → Except ReadError (List Char)
  | [] => .error .ended
  | c :: cs =>
    if c = 'u' then (readHex cs).map Prod.snd
    else if (escapedChar? c).isSome then .ok cs
    else .error .malformed

/-- Takes the characters of a string off, behind its opening quote, in at most so many turns. -/
def readCharsIn : Nat → Reader (List Char)
  | 0, _ => .error .ended
  | _ + 1, [] => .error .ended
  | turns + 1, c :: cs =>
    if c = '"' then .ok ([], cs)
    else if c = '\\' then
      match readEscape cs with
      | .error e => .error e
      | .ok (c, cs) => (readCharsIn turns cs).map fun (more, rest) => (c :: more, rest)
    else if c.toNat < 0x20 then .error .malformed
    else (readCharsIn turns cs).map fun (more, rest) => (c :: more, rest)

/-- Takes the characters of a string off, behind its opening quote. -/
def readChars : Reader (List Char) := fun cs =>
  readCharsIn (cs.length + 1) cs

/-- Takes a string off, behind its opening quote, with only its form checked, in at most so many
turns. -/
def skipCharsIn : Nat → List Char → Except ReadError (List Char)
  | 0, _ => .error .ended
  | _ + 1, [] => .error .ended
  | turns + 1, c :: cs =>
    if c = '"' then .ok cs
    else if c = '\\' then
      match skipEscape cs with
      | .error e => .error e
      | .ok cs => skipCharsIn turns cs
    else if c.toNat < 0x20 then .error .malformed
    else skipCharsIn turns cs

/-- Takes a string off, behind its opening quote, with only its form checked. -/
def skipChars (cs : List Char) : Except ReadError (List Char) :=
  skipCharsIn (cs.length + 1) cs

/-! ### Numbers -/

/-- The digits at the front of a text, and the rest. -/
def spanDigits (cs : List Char) : List Char × List Char :=
  cs.span Char.isDigit

/-- The value of decimal digits. -/
def digitsValue (ds : List Char) : Nat :=
  ds.foldl (fun n d => n * 10 + (d.toNat - 0x30)) 0

/-- Takes the exponent of a number off, behind its letter. A text that ends there fails as told. -/
def takeExponent (atEnd : ReadError) : Reader (Bool × List Char) := fun cs =>
  let (negative, cs) :=
    match cs with
    | '+' :: rest => (false, rest)
    | '-' :: rest => (true, rest)
    | _ => (false, cs)
  match spanDigits cs with
  | ([], []) => .error atEnd
  | ([], _ :: _) => .error .malformed
  | (ds, rest) => .ok ((negative, ds), rest)

/-- A number as it is written, without its sign. -/
structure Numeral where
  /-- The digits before the point. -/
  whole : List Char
  /-- The digits behind the point. -/
  fraction : List Char
  /-- Whether the exponent is negative. -/
  negativeExponent : Bool
  /-- The digits of the exponent. -/
  exponent : List Char
deriving DecidableEq, Repr

/-- Takes the digits before the point off: a zero, or digits that do not start with one. -/
def takeWhole (atEnd : ReadError) : Reader (List Char) := fun cs =>
  match spanDigits cs with
  | ([], []) => .error atEnd
  | ([], _ :: _) => .error .malformed
  | (d :: ds, rest) => if d = '0' ∧ ds ≠ [] then .error .malformed else .ok (d :: ds, rest)

/-- Takes the digits behind the point off, if there is one. -/
def takeFraction (atEnd : ReadError) : Reader (List Char)
  | '.' :: cs =>
    match spanDigits cs with
    | ([], []) => .error atEnd
    | ([], _ :: _) => .error .malformed
    | (ds, rest) => .ok (ds, rest)
  | cs => .ok ([], cs)

/-- Takes a number off, behind its sign. A text that ends where a digit has to follow fails as
told. -/
def takeNumeral (atEnd : ReadError) : Reader Numeral := fun cs =>
  match takeWhole atEnd cs with
  | .error e => .error e
  | .ok (whole, cs) =>
    match takeFraction atEnd cs with
    | .error e => .error e
    | .ok (fraction, cs) =>
      match cs with
      | c :: rest =>
        if c = 'e' ∨ c = 'E' then
          (takeExponent atEnd rest).map fun ((negative, ds), rest) =>
            (⟨whole, fraction, negative, ds⟩, rest)
        else .ok (⟨whole, fraction, false, []⟩, cs)
      | [] => .ok (⟨whole, fraction, false, []⟩, [])

/-- The bound below which digits are still taken into the significand. -/
def significandBound : Nat := Nat.pow 2 64

/-- The significand of some digits, and how many digits it left out because they would not fit. -/
def significandOf (start : Nat) : List Char → Nat × Nat
  | [] => (start, 0)
  | d :: ds =>
    let next := start * 10 + (d.toNat - 0x30)
    if next < significandBound then significandOf next ds else (start, ds.length + 1)

/-- Whether a significand times a power of ten is too large for a double. -/
def overflows (significand exponent : Nat) : Bool :=
  if significand = 0 then false
  else if 308 < exponent then true
  else (significand.toFloat * Float.ofScientific 1 false exponent).isInf

/-- Whether a number is too large to be told: its magnitude is beyond the doubles. Digits that do
not fit into the significand only count for the exponent. -/
def Numeral.tooLarge (n : Numeral) : Bool :=
  let (whole, left) := significandOf 0 n.whole
  let (significand, dropped) := significandOf whole n.fraction
  let taken := n.fraction.length - dropped
  let given := digitsValue n.exponent
  if left = 0 && n.fraction.isEmpty && n.exponent.isEmpty then false
  else if n.negativeExponent then
    given + taken ≤ left && overflows significand (left - taken - given)
  else if Nat.pow 2 31 ≤ given then significand != 0
  else taken ≤ left + given && overflows significand (left + given - taken)

/-- Takes a number off with only its form checked. -/
def skipNumber (cs : List Char) : Except ReadError (List Char) :=
  (takeNumeral .malformed cs).map Prod.snd

/-! ### Values of another kind -/

/-- The complaint about a scalar that is a word. -/
def wordError (word cs : List Char) : ReadError :=
  match expect word cs with
  | .error e => e
  | .ok _ => .mismatch

/-- The complaint about a number. -/
def numberError (cs : List Char) : ReadError :=
  match takeNumeral .ended cs with
  | .error e => e
  | .ok (n, _) => if n.tooLarge then .malformed else .mismatch

/-- The complaint about a value of another kind, from its first character on. A scalar that is
itself malformed is complained about as such. -/
def otherKind (cs : List Char) : ReadError :=
  match cs with
  | [] => .ended
  | c :: rest =>
    if c = 'n' then wordError ['u', 'l', 'l'] rest
    else if c = 't' then wordError ['r', 'u', 'e'] rest
    else if c = 'f' then wordError ['a', 'l', 's', 'e'] rest
    else if c = '-' then numberError rest
    else if c.isDigit then numberError cs
    else if c = '"' then
      match readChars rest with
      | .error e => e
      | .ok _ => .mismatch
    else if c = '[' ∨ c = '{' then .mismatch
    else .malformed

/-! ### Scalars -/

/-- Takes a truth value off. -/
def readBool : Reader Bool := fun cs =>
  match skipSpace cs with
  | [] => .error .ended
  | c :: rest =>
    if c = 't' then (expect ['r', 'u', 'e'] rest).map fun rest => (true, rest)
    else if c = 'f' then (expect ['a', 'l', 's', 'e'] rest).map fun rest => (false, rest)
    else .error (otherKind (c :: rest))

/-- Takes the value `null` off. -/
def readNull : Reader Unit := fun cs =>
  match skipSpace cs with
  | [] => .error .ended
  | c :: rest =>
    if c = 'n' then (expect ['u', 'l', 'l'] rest).map fun rest => ((), rest)
    else .error (otherKind (c :: rest))

/-- Takes a character off behind white space. -/
def readToken (token : Char) (cs : List Char) : Except ReadError (List Char) :=
  match skipSpace cs with
  | [] => .error .ended
  | c :: rest => if c = token then .ok rest else .error .malformed

/-- Takes a string off, behind its opening quote, that has to be a name in a table. -/
def readNamed {α : Type} (ofName? : String → Option α) : Reader α := fun cs =>
  match readChars cs with
  | .error e => .error e
  | .ok (name, rest) =>
    match ofName? (String.ofList name) with
    | some a => .ok (a, rest)
    | none => .error .mismatch

/-- Takes a name off that stands as the only key of an object with the value `null`, behind the
opening brace. Whatever is no string is malformed as a key, as it is in every object. -/
def readTagged {α : Type} (ofName? : String → Option α) : Reader α := fun cs => do
  let (a, cs) ←
    match skipSpace cs with
    | [] => .error .ended
    | c :: rest => if c = '"' then readNamed ofName? rest else .error .malformed
  let cs ← readToken ':' cs
  let ((), cs) ← readNull cs
  let cs ← readToken '}' cs
  return (a, cs)

/-- Takes a name off, as a string or as the only key of an object with the value `null`. -/
def readName {α : Type} (ofName? : String → Option α) : Reader α := fun cs =>
  match skipSpace cs with
  | [] => .error .ended
  | c :: rest =>
    if c = '{' then readTagged ofName? rest
    else if c = '"' then readNamed ofName? rest
    else .error .malformed

/-! ### Lists and objects -/

/-- Goes to the next element of a list, behind the comma that has to precede all but the first.
Answers `none` and the rest when the list closes. -/
def nextElement? (first : Bool) (cs : List Char) : Except ReadError (Bool × List Char) :=
  match skipSpace cs with
  | [] => .error .ended
  | c :: rest =>
    if c = ']' then .ok (false, rest)
    else if first then .ok (true, c :: rest)
    else if c = ',' then
      match skipSpace rest with
      | [] => .error .ended
      | d :: rest => if d = ']' then .error .malformed else .ok (true, d :: rest)
    else .error .malformed

/-- Goes to the next key of an object, behind its opening quote and behind the comma that has to
precede all but the first. Answers `false` and the rest when the object closes. -/
def nextKey? (first : Bool) (cs : List Char) : Except ReadError (Bool × List Char) :=
  match skipSpace cs with
  | [] => .error .ended
  | c :: rest =>
    if c = '}' then .ok (false, rest)
    else if first then if c = '"' then .ok (true, rest) else .error .malformed
    else if c = ',' then
      match skipSpace rest with
      | [] => .error .ended
      | d :: rest => if d = '"' then .ok (true, rest) else .error .malformed
    else .error .malformed

/-- Takes the elements of a list off, behind its opening bracket, in at most so many turns. -/
def readElementsIn {α : Type} (element : Reader α) : Nat → Bool → Reader (List α)
  | 0, _, _ => .error .ended
  | turns + 1, first, cs => do
    let (more, cs) ← nextElement? first cs
    if more then
      let (a, cs) ← element cs
      let (as, cs) ← readElementsIn element turns false cs
      return (a :: as, cs)
    else return ([], cs)

/-- Takes a list off. -/
def readList {α : Type} (element : Reader α) : Reader (List α) := fun cs =>
  match skipSpace cs with
  | [] => .error .ended
  | c :: rest =>
    if c = '[' then readElementsIn element (rest.length + 1) true rest
    else .error (otherKind (c :: rest))

/-- Takes the entries of an object off, behind its opening brace, in at most so many turns. -/
def readEntriesIn {α β : Type} (key : Reader α) (value : Reader β) :
    Nat → Bool → Reader (List (α × β))
  | 0, _, _ => .error .ended
  | turns + 1, first, cs => do
    let (more, cs) ← nextKey? first cs
    if more then
      let (a, cs) ← key cs
      let cs ← readToken ':' cs
      let (b, cs) ← value cs
      let (entries, cs) ← readEntriesIn key value turns false cs
      return ((a, b) :: entries, cs)
    else return ([], cs)

/-- Takes an object off whose keys are names in a table. -/
def readObject {α β : Type} (key : Reader α) (value : Reader β) : Reader (List (α × β)) :=
  fun cs =>
    match skipSpace cs with
    | [] => .error .ended
    | c :: rest =>
      if c = '{' then readEntriesIn key value (rest.length + 1) true rest
      else .error (otherKind (c :: rest))

/-! ### Values that do not matter -/

/-- What may come next inside a value that is skipped. -/
inductive SkipPoint where
  /-- A value. -/
  | value
  /-- What follows a value. -/
  | afterValue
  /-- What follows an opening bracket or brace. -/
  | afterOpening

/-- Goes to the value of the next member of a list (`false`) or an object (`true`). -/
def skipToMember (object : Bool) (cs : List Char) : Except ReadError (List Char) := do
  if object then
    let cs ← readToken '"' cs
    let cs ← skipChars cs
    readToken ':' cs
  else return cs

/-- The character that closes a list (`false`) or an object (`true`). -/
def closer (object : Bool) : Char :=
  if object then '}' else ']'

/-- Takes a scalar off, or reports the list (`false`) or object (`true`) that opens. -/
def skipScalar (cs : List Char) : Except ReadError (Option Bool × List Char) :=
  match skipSpace cs with
  | [] => .error .ended
  | c :: rest =>
    if c = 'n' then (expect ['u', 'l', 'l'] rest).map fun rest => (none, rest)
    else if c = 't' then (expect ['r', 'u', 'e'] rest).map fun rest => (none, rest)
    else if c = 'f' then (expect ['a', 'l', 's', 'e'] rest).map fun rest => (none, rest)
    else if c = '-' then (skipNumber rest).map fun rest => (none, rest)
    else if c.isDigit then (skipNumber (c :: rest)).map fun rest => (none, rest)
    else if c = '"' then (skipChars rest).map fun rest => (none, rest)
    else if c = '[' then .ok (some false, rest)
    else if c = '{' then .ok (some true, rest)
    else .error .malformed

/-- Skips what is left of a value inside lists and objects that are still open, innermost first, in
at most so many turns. -/
def skipIn : Nat → SkipPoint → List Bool → List Char → Except ReadError (List Char)
  | 0, _, _, _ => .error .ended
  | turns + 1, .value, stack, cs => do
    match ← skipScalar cs with
    | (none, cs) => skipIn turns .afterValue stack cs
    | (some object, cs) => skipIn turns .afterOpening (object :: stack) cs
  | _ + 1, _, [], cs => .ok cs
  | turns + 1, .afterValue, object :: stack, cs =>
    match skipSpace cs with
    | [] => .error .ended
    | c :: rest =>
      if c = closer object then skipIn turns .afterValue stack rest
      else if c = ',' then do
        skipIn turns .value (object :: stack) (← skipToMember object rest)
      else .error .malformed
  | turns + 1, .afterOpening, object :: stack, cs =>
    match skipSpace cs with
    | [] => .error .ended
    | c :: rest =>
      if c = closer object then skipIn turns .afterValue stack rest
      else do skipIn turns .value (object :: stack) (← skipToMember object (c :: rest))

/-- Takes any value off, with only its form checked. -/
def skipValue (cs : List Char) : Except ReadError (List Char) :=
  skipIn (2 * cs.length + 2) .value [] cs

/-- Accepts a text that is nothing but white space. -/
def expectEnd (cs : List Char) : Except ReadError Unit :=
  match skipSpace cs with
  | [] => .ok ()
  | _ :: _ => .error .malformed

end Json

end LexPaint
