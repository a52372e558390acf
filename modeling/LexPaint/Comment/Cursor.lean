import LexPaint.Comment.Rules
/-!
# The comment cursor

A forward scanner that tells whether an offset lies inside a block comment. It lexes from its
start, following quotes and line comments, so an open mark inside a string or a line comment opens
nothing. Queries at non-decreasing offsets go on where the previous one stopped, and an earlier
offset starts the scan afresh.

## Main definitions

* `Lexeme`, `LexPoint`: what the scanner is inside of, and where.
* `Token`, `CommentRules.nextToken`: the next token of the scan.
* `CommentRules.seek`: the scan up to the token that holds an offset, with a bound on its steps.
* `CommentCursor`, `CommentCursor.query`: the scanner with its memory.

## Implementation notes

A token can be empty, because a mark can be. `CommentRules.seek` therefore counts its steps and
answers `none` when it runs out of them, and `CommentCursor.query` grants three steps for each
byte: an empty closing mark, an empty line mark and a byte. Only when both block marks are empty
does the scan alternate between them for ever.
-/

namespace LexPaint

/-- What the scanner is inside of. -/
inductive Lexeme where
  /-- Outside quotes and comments. -/
  | code
  /-- Inside a quote opened by this byte. -/
  | quote (opener : UInt8)
  /-- Inside a block opened by this byte three times. -/
  | textBlock (opener : UInt8)
  | lineComment
  /-- Inside the block comment that starts at this offset. -/
  | blockComment (start : Nat)
deriving DecidableEq, Repr, Inhabited

namespace Lexeme

/-- The start of the block comment that the scanner is inside of. -/
def owner : Lexeme → Option Nat
  | blockComment start => some start
  | _ => none

end Lexeme

/-- Where the scanner stands and what it is inside of there. -/
structure LexPoint where
  /-- The next offset to look at. -/
  pos : Nat
  /-- What holds at that offset. -/
  lexeme : Lexeme
deriving DecidableEq, Repr, Inhabited

/-- One token of the scan. -/
structure Token where
  /-- The number of bytes, which may reach past the end of the text. -/
  length : Nat
  /-- What the scanner is inside of after the token. -/
  next : Lexeme
  /-- The start of the block comment that the token belongs to. -/
  owner : Option Nat
deriving DecidableEq, Repr, Inhabited

variable {φ : Type}

namespace CommentRules

/-- A quote byte three times. -/
def triple (quote : UInt8) : Mark :=
  [quote, quote, quote]

variable [FiltersMarks φ]

/-- The token at an offset outside quotes and comments. -/
def codeToken (r : CommentRules φ) (t : Text) (pos : Nat) : Token :=
  if t.hasAt pos r.opener then ⟨r.opener.length, .blockComment pos, some pos⟩
  else
    match (r.lineMarks.find? (t.hasAt pos)).filter
        (fun _ => FiltersMarks.admits r.lineFilter t pos) with
    | some m => ⟨m.length, .lineComment, none⟩
    | none =>
      match (t.byteAt pos).filter isQuote with
      | some q =>
        if r.textBlocks && t.hasAt pos (triple q) then ⟨3, .textBlock q, none⟩
        else ⟨1, .quote q, none⟩
      | none => ⟨1, .code, none⟩

/-- The next token of the scan. -/
def nextToken (r : CommentRules φ) (t : Text) (p : LexPoint) : Token :=
  match p.lexeme with
  | .blockComment start =>
    if t.hasAt p.pos r.closer then ⟨r.closer.length, .code, some start⟩
    else ⟨1, p.lexeme, some start⟩
  | .lineComment =>
    if t.byteIs (· == newline) p.pos then ⟨1, .code, none⟩ else ⟨1, p.lexeme, none⟩
  | .quote q =>
    if t.byteIs (· == backslash) p.pos then ⟨2, p.lexeme, none⟩
    else if t.byteIs (· == q) p.pos then ⟨1, .code, none⟩
    else if t.byteIs (· == newline) p.pos && !r.multilineQuotes then ⟨1, .code, none⟩
    else ⟨1, p.lexeme, none⟩
  | .textBlock q =>
    if t.byteIs (· == backslash) p.pos then ⟨2, p.lexeme, none⟩
    else if t.hasAt p.pos (triple q) then ⟨3, .code, none⟩
    else ⟨1, p.lexeme, none⟩
  | .code => r.codeToken t p.pos

/-- Scans from a point to the token that holds the target, or to the end of the text, in at most
the given number of steps. Answers with the block comment found there and the point reached. -/
def seek (r : CommentRules φ) (t : Text) (target : Nat) :
    Nat → LexPoint → Option (Option Nat × LexPoint)
  | 0, _ => none
  | steps + 1, p =>
    if t.size ≤ p.pos then some (p.lexeme.owner, p)
    else
      let token := r.nextToken t p
      -- a backslash may take a byte along that the text does not have
      let length := min token.length (t.size - p.pos)
      if target < p.pos + length then some (token.owner, p)
      else r.seek t target steps ⟨p.pos + length, token.next⟩

end CommentRules

/-- The scanner for block comments with its memory. -/
structure CommentCursor (φ : Type := MarkFilter) where
  /-- The text that is scanned, to its end. -/
  text : Text
  /-- The comments and quotes to follow. -/
  rules : CommentRules φ
  /-- Where the scan starts. -/
  start : Nat
  /-- Where the last query left the scan. -/
  point : LexPoint
deriving DecidableEq, Inhabited

namespace CommentCursor

/-- A scanner that starts at an offset, or at the end of the text if that comes first. -/
def new (text : Text) (start : Nat) (rules : CommentRules φ) : CommentCursor φ :=
  let start := min start text.size
  ⟨text, rules, start, ⟨start, .code⟩⟩

variable [FiltersMarks φ]

/-- The start of the block comment that the byte at the target belongs to, and the scanner after
the query. The open and the close mark count as part of the comment. -/
def query (c : CommentCursor φ) (target : Nat) : Option Nat × CommentCursor φ :=
  if target < c.start then (none, c)
  else
    -- a target in front of the point starts the scan anew, any other one lets it go on from there
    let p := if target < c.point.pos then ⟨c.start, .code⟩ else c.point
    match c.rules.seek c.text target (3 * (c.text.size - p.pos) + 3) p with
    | some (answer, p) => (answer, { c with point := p })
    | none => (none, c)

/-- The answers to several queries in turn. -/
def queries (c : CommentCursor φ) : List Nat → List (Option Nat)
  | [] => []
  | target :: rest =>
    let (answer, c) := c.query target
    answer :: c.queries rest

end CommentCursor

end LexPaint
