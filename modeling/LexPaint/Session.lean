import LexPaint.Highlighter
/-!
# Sessions

A session is a document while it is being edited, together with its highlighter. Whoever edits it
makes requests: edits that the highlighter is told about, edits that it is not told about, and
notifications that may be right or wrong. Each request is answered with what the highlighter did.

## Main definitions

* `Session`: a document with its highlighter.
* `Request`, `Reply`: what can be asked of a session, and what it answers.
* `Session.serve`, `Session.serveAll`: serving one request, and several in turn.

## Implementation notes

An edit at an offset that is no boundary has no result, so it is a fault of the request. Nothing
else that a request says can be a fault: a notification that does not fit is answered by a full
pass.
-/

namespace LexPaint

/-- A document with its highlighter. -/
structure Session where
  /-- The highlighter. -/
  highlighter : Highlighter
  /-- The document. -/
  doc : Buffer
deriving Inhabited

/-- What can be asked of a session. -/
inductive Request where
  /-- Lexes and paints the whole document. -/
  | highlight
  /-- Inserts a text; an announced edit is painted. -/
  | insert (pos : Nat) (text : Text) (announced : Bool)
  /-- Removes bytes; an announced edit is painted. -/
  | remove (pos length : Nat) (announced : Bool)
  /-- Tells the highlighter about an edit, rightly or wrongly. -/
  | notify (n : Notification)
  /-- Changes the language. -/
  | setLanguage (language : Language)
  /-- Gives bytes a style, as something other than the highlighter might do. -/
  | paint (start length : Nat) (style : Style)
deriving DecidableEq, Inhabited

/-- What a session answers to a request. -/
structure Reply where
  /-- How the document was painted, if it was. -/
  kind : Option PassKind
  /-- Why an edit was not served locally, if that is worth a warning. -/
  fallback : Option Fallback
deriving DecidableEq, Repr, Inhabited

namespace Served

/-- The session after a served edit. -/
def session (served : Served) : Session :=
  ⟨served.highlighter, served.doc⟩

/-- The answer to a served edit. -/
def reply (served : Served) : Reply :=
  ⟨some served.kind, served.fallback⟩

end Served

namespace Session

/-- A text in a language, not highlighted yet. -/
def new (language : Language) (config : Config) (text : Text) : Session :=
  ⟨.new language config, .new text⟩

/-- Lexes and paints the whole document. -/
def highlight (s : Session) : Checked Session := do
  let (highlighter, doc) ← s.highlighter.highlightDocument s.doc
  return ⟨highlighter, doc⟩

/-- Inserts a text and has the edit painted. -/
def insert (s : Session) (pos : Nat) (text : Text) : Checked Served := do
  let (doc, n) ← s.doc.insert pos text
  s.highlighter.highlightEdit doc n

/-- Removes bytes and has the edit painted. -/
def remove (s : Session) (pos length : Nat) : Checked Served := do
  let (doc, n) ← s.doc.remove pos length
  s.highlighter.highlightEdit doc n

/-- The answer to a request that paints nothing. -/
def quietly (s : Session) : Reply × Session :=
  (⟨none, none⟩, s)

/-- The answer to an edit and the session after it. -/
def afterEdit (served : Served) : Reply × Session :=
  (served.reply, served.session)

/-- Serves one request. -/
def serve (s : Session) : Request → Checked (Reply × Session)
  | .highlight => do return (⟨some .full, none⟩, ← s.highlight)
  | .insert pos text true => do return afterEdit (← s.insert pos text)
  | .insert pos text false => do
    return quietly { s with doc := (← s.doc.insert pos text).1 }
  | .remove pos length true => do return afterEdit (← s.remove pos length)
  | .remove pos length false => do
    return quietly { s with doc := (← s.doc.remove pos length).1 }
  | .notify n => do return afterEdit (← s.highlighter.highlightEdit s.doc n)
  | .setLanguage language =>
    .ok (quietly { s with highlighter := s.highlighter.setLanguage language })
  | .paint start length style => .ok (quietly { s with doc := s.doc.paint start length style })

/-- The session after several requests in turn. -/
def serveAll (s : Session) : List Request → Checked Session
  | [] => .ok s
  | request :: rest => do (← s.serve request).2.serveAll rest

/-- A list of requests can be served in two parts. -/
theorem serveAll_append (s : Session) (before after : List Request) :
    s.serveAll (before ++ after) = s.serveAll before >>= fun s => s.serveAll after := by
  induction before generalizing s with
  | nil => rfl
  | cons request rest ih =>
    simp only [List.cons_append, serveAll]
    cases s.serve request with
    | error fault => rfl
    | ok answered => exact ih answered.2

end Session

end LexPaint
