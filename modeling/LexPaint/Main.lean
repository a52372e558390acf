import LexPaint.Baseline
import LexPaint.Service
/-!
# The command line

With a file as argument, the file is printed with terminal colors. Without one, a baseline run over
all languages is timed and reported. An environment variable can name a configuration file.

## Main definitions

* `main`: the command line.
-/

namespace LexPaint.CommandLine

/-- The environment variable that can name a configuration file. -/
def configVariable : String := "EDIT_HIGHLIGHT_CONFIG"

/-- The bytes of a file, if it can be read. -/
def readFile? (path : String) : IO (Option ByteArray) := do
  try
    return some (← IO.FS.readBinFile path)
  catch _ =>
    return none

/-- The configuration in use. -/
def configFromEnvironment : IO (Except ConfigError Config) := do
  match ← IO.getEnv configVariable with
  | none => return .ok .standard
  | some path => return (Config.load path (← readFile? path)).map Prod.fst

/-- The number of lines of the documents in a timed run. -/
def timedLines : Nat := 2000

/-- How many lines apart the edits of a timed run are. -/
def timedStride : Nat := 25

/-- The value of a computation; a fault ends the program. -/
def orStop {α : Type} (computed : Checked α) : IO α :=
  match computed with
  | .error _ => throw (IO.userError "a request was out of range")
  | .ok a => return a

/-- Runs a request and answers with its time in nanoseconds. -/
def timed {α : Type} (request : Unit → Checked α) : IO (α × Nat) := do
  let start ← IO.monoNanosNow
  let a ← orStop (request ())
  let stop ← IO.monoNanosNow
  return (a, stop - start)

/-- A baseline run over one language with the times of its passes. -/
def timeLanguage (m : Measurement) (l : Language) : IO Measurement := do
  let (opened, time) ← timed fun _ => Baseline.start l timedLines
  let mut session := opened
  let mut m ← orStop (m.record .full opened.doc.size time)
  for lineStart in Baseline.editedLines opened.doc.text timedStride do
    let before := session
    let pos := Baseline.lineMiddle before.doc.text lineStart
    let ((kind, typed), time) ← timed fun _ => Baseline.type before pos
    m ← orStop (m.record kind typed.doc.size time)
    let ((kind, deleted), time) ← timed fun _ => Baseline.delete typed pos
    m ← orStop (m.record kind deleted.doc.size time)
    session := deleted
  return m

/-- Times a baseline run over all languages and reports it. -/
def reportBaseline : IO UInt32 := do
  let mut m := Measurement.empty
  for l in Service.supportedLanguages do
    m ← timeLanguage m l
  IO.println m.report
  let issues := m.issues
  if issues.isEmpty then
    IO.println "All performance requirements met."
    return 0
  IO.println "Performance issues detected:"
  for issue in issues do
    IO.println ("  - " ++ issue)
  return 1

/-- Prints a file with terminal colors. -/
def printFile (config : Except ConfigError Config) (path : String) : IO UInt32 := do
  match renderFile config path (← readFile? path) with
  | none => return 1
  | some text =>
    (← IO.getStdout).write text.bytes
    return 0

end LexPaint.CommandLine

open LexPaint.CommandLine in
/-- Prints the file given as argument, or reports a timed run. -/
def main (args : List String) : IO UInt32 := do
  let config ← configFromEnvironment
  match config, args with
  | .error _, _ => do
    IO.eprintln "Invalid configuration"
    return 1
  | .ok _, path :: _ => printFile config path
  | .ok _, [] => reportBaseline
