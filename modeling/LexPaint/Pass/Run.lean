import LexPaint.Pass.Quote
import LexPaint.Pass.Comment
import LexPaint.Pass.Heredoc
import LexPaint.Pass.QuoteOperator
import LexPaint.Pass.Token
import LexPaint.Pass.Embedded
import LexPaint.Pass.Tag
/-!
# Running a program

A profile's program is run over a frame primitive by primitive. Once a primitive has asked for a
full pass, the rest of the program does nothing, because all of it will be done again.

## Main definitions

* `Primitive.run`, `Primitive.runAll`: one primitive and a list of them.
* `Profile.runPass`: a pass over one section of a document.
-/

namespace LexPaint

namespace Primitive

mutual

/-- Runs one primitive over a frame. -/
def run (s : Scene) : Primitive → Frame → Pass → Checked Pass
  | .setCondition condition, _, p => .ok { p with condition }
  | .quotes singleLine, f, p => p.mapQuotes s f singleLine
  | .lineComments openers, f, p => p.mapLineComments s f openers
  | .blockComments opener closer ignoreQuoted, f, p =>
    p.mapBlockComments s f opener closer ignoreQuoted
  | .keywords words wholeWord notAfter style, f, p =>
    p.paintKeywords s f words wholeWord notAfter style
  | .extensibleKeyword base suffixes style, f, p => p.paintExtensible s f base suffixes style
  | .signedVariable sign ends exceptions, f, p => p.paintVariables s f sign ends exceptions
  | .marks bytes style, f, p => p.paintMarks s f bytes style
  | .heredocs, f, p => p.mapHeredocs s f
  | .quoteOperators, f, p => p.mapOperators s f
  | .tags, f, p => p.mapTags s f
  | .innerSection startTag endTag element name dialect body, f, p =>
    p.mapRegions s f startTag endTag element name dialect (runAll s body)
  | .embedScope name dialect body, f, p => p.embedScope f name dialect (runAll s body)
  | .ifContains needle yes no, f, p =>
    if (f.scope.find needle 0 f.scope.size).isSome then runAll s yes f p else runAll s no f p

/-- Runs primitives in order until one of them asks for a full pass. -/
def runAll (s : Scene) : List Primitive → Frame → Pass → Checked Pass
  | [], _, p => .ok p
  | primitive :: rest, f, p =>
    match p.repair with
    | some _ => .ok p
    | none =>
      match run s primitive f p with
      | .error fault => .error fault
      | .ok p => runAll s rest f p

end

end Primitive

namespace Profile

/-- Runs a pass that paints one section of a document, from the layouts left by the last pass. -/
def runPass (profile : Profile) (doc : Buffer) (start length : Nat) (detect : Bool)
    (layout : Layout) (nested : IntervalSet) : Checked Pass :=
  let scene : Scene := ⟨doc.text, start, start + length, detect⟩
  let frame := Frame.document doc.text profile.dialect
  Primitive.runAll scene profile.program frame
    ⟨doc.clear start length, layout.reset, nested.reset, .unconditional, none⟩

end Profile

end LexPaint
