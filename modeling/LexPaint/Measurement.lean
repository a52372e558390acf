import LexPaint.Capacity
import LexPaint.Decimal
import LexPaint.Painter
/-!
# Measurements

The times of passes by kind and by size of the document, so that the cost of a local pass can be
compared with that of the full pass it stands for. Times are whole nanoseconds.

## Main definitions

* `SizeCategory`, `PassKey`: what measurements are grouped by.
* `Measurement`: the times recorded, with averages kept beside them.
* `Measurement.withPass`, `Measurement.record`: one more pass, the latter where counters have to
  hold the sums.
* `Measurement.report`, `Measurement.issues`: the report, and the requirements that are not met.
-/

namespace LexPaint

/-- The size of a document, roughly. -/
inductive SizeCategory where
  /-- Up to 10 KB. -/
  | small
  /-- Up to 100 KB. -/
  | medium
  /-- Up to 1 MB. -/
  | large
  /-- Over 1 MB. -/
  | extraLarge
deriving DecidableEq, Repr, Inhabited

namespace SizeCategory

/-- The category of a document of so many bytes. -/
def ofBytes (bytes : Nat) : SizeCategory :=
  if bytes ≤ 10240 then small
  else if bytes ≤ 102400 then medium
  else if bytes ≤ 1048576 then large
  else extraLarge

/-- The categories by size. -/
def all : List SizeCategory :=
  [small, medium, large, extraLarge]

/-- The short name of a category. -/
def label : SizeCategory → String
  | small => "Small"
  | medium => "Medium"
  | large => "Large"
  | extraLarge => "ExtraLarge"

/-- The name of a category with its bounds. -/
def name : SizeCategory → String
  | small => "Small (< 10KB)"
  | medium => "Medium (10KB - 100KB)"
  | large => "Large (100KB - 1MB)"
  | extraLarge => "Extra Large (> 1MB)"

end SizeCategory

/-- The name of a pass kind. -/
def PassKind.label : PassKind → String
  | .full => "Full"
  | .linesOnly => "Local"
  | .repair => "Repair"

/-- What measurements are grouped by. -/
structure PassKey where
  /-- The kind of the passes. -/
  kind : PassKind
  /-- The size of the documents. -/
  size : SizeCategory
deriving DecidableEq, Repr, Inhabited

/-- The keys by size, and for one size full passes, local passes and repairs. -/
def PassKey.all : List PassKey :=
  SizeCategory.all.flatMap fun size => [⟨.full, size⟩, ⟨.linesOnly, size⟩, ⟨.repair, size⟩]

/-- The times of passes recorded so far. -/
structure Measurement where
  /-- The times of the passes of each key that has any, the latest first. -/
  passTimes : List (PassKey × List Nat)
  /-- The average time for each key, rounded down. -/
  averages : List (PassKey × Nat)
  /-- The longest time. -/
  maxTime : Nat
  /-- The number of passes. -/
  passes : Nat
  /-- The bytes that full passes and repairs went over. -/
  fullBytes : Nat
  /-- The time that full passes and repairs took. -/
  fullTime : Nat
deriving DecidableEq, Repr, Inhabited

namespace Measurement

/-- No measurements. -/
def empty : Measurement :=
  ⟨[], [], 0, 0, 0, 0⟩

/-- Changes the entry of a key in place, or adds one at the end. -/
def update {α : Type} (key : PassKey) (change : Option α → α) :
    List (PassKey × α) → List (PassKey × α)
  | [] => [(key, change none)]
  | (k, a) :: rest =>
    if k = key then (k, change (some a)) :: rest else (k, a) :: update key change rest

/-- The times recorded for a key. -/
def times (m : Measurement) (key : PassKey) : List Nat :=
  (m.passTimes.lookup key).getD []

/-- The sum of some times. -/
def sum (times : List Nat) : Nat :=
  times.foldl (· + ·) 0

/-- The average of some times, rounded down. -/
def average (times : List Nat) : Nat :=
  Capacity.share (sum times) times.length

/-- The measurements with one more pass over a document of so many bytes, whether or not the
counters can hold them. -/
def withPass (m : Measurement) (kind : PassKind) (bytes time : Nat) : Measurement :=
  let key : PassKey := ⟨kind, .ofBytes bytes⟩
  let passTimes := update key (fun times => time :: times.getD []) m.passTimes
  let times := (passTimes.lookup key).getD []
  let recorded : Measurement :=
    { m with
      passTimes
      averages := update key (fun _ => average times) m.averages
      maxTime := max m.maxTime time
      passes := m.passes + 1 }
  if kind = .linesOnly then recorded
  else { recorded with fullBytes := m.fullBytes + bytes, fullTime := m.fullTime + time }

/-- Whether the counters can hold the sums, among the times those of one key. -/
def fitsAt (m : Measurement) (key : PassKey) : Bool :=
  sum (m.times key) < Capacity.ofTime && m.passes < Capacity.ofCount &&
    m.fullBytes < Capacity.ofCount && m.fullTime < Capacity.ofTime

/-- Records one pass over a document of so many bytes. -/
def record (m : Measurement) (kind : PassKind) (bytes time : Nat) : Checked Measurement := do
  let key : PassKey := ⟨kind, .ofBytes bytes⟩
  let recorded := m.withPass kind bytes time
  demand (recorded.fitsAt key) .aboveCapacity
  demand (Capacity.divisor (recorded.times key).length != 0) .dividesByZero
  return recorded

/-- The number of passes of a kind over documents of any size. -/
def countOf (m : Measurement) (kind : PassKind) : Nat :=
  (m.passTimes.filter (fun entry => entry.1.kind == kind)).foldl
    (fun count entry => count + entry.2.length) 0

/-- The share of edits that needed a repair. -/
def repairRatio (m : Measurement) : Float :=
  let repairs := m.countOf .repair
  let edits := repairs + m.countOf .linesOnly
  if edits = 0 then 0 else repairs.toFloat / edits.toFloat

/-- Nanoseconds as seconds. -/
def seconds (time : Nat) : Float :=
  (time / 1000000000).toFloat + (time % 1000000000).toFloat / 1000000000

/-- The bytes that full passes and repairs went over per second. -/
def throughput (m : Measurement) : Float :=
  if m.fullTime = 0 then 0 else m.fullBytes.toFloat / seconds m.fullTime

/-- The keys with measurements, by size and then by kind. -/
def keys (m : Measurement) : List PassKey :=
  PassKey.all.filter (fun key => (m.passTimes.lookup key).isSome)

/-- The line of the report for one key. -/
def reportLine (m : Measurement) (key : PassKey) : String :=
  let times := m.times key
  "  " ++ key.kind.label ++ " / " ++ key.size.name ++ ": " ++ Nat.repr times.length ++
    " passes, avg " ++ Nat.repr ((m.averages.lookup key).getD 0 / 1000) ++ "us, max " ++
    Nat.repr (times.foldl max 0 / 1000) ++ "us\n"

/-- The report. -/
def report (m : Measurement) : String :=
  "=== Performance Baseline Report ===\n\nPass Times:\n" ++
    String.join (m.keys.map m.reportLine) ++
    "\nSummary:\n  Passes: " ++ Nat.repr m.passes ++
    "\n  Max pass time: " ++ Nat.repr (m.maxTime / 1000) ++
    "us\n  Repair ratio: " ++ Decimal.fixed 1 (m.repairRatio * 100) ++
    "%\n  Full pass throughput: " ++ Decimal.fixed 0 m.throughput ++
    " bytes/sec\n\n=== End Report ===\n"

/-- The time that passes of a key may take on average, in milliseconds. There is no limit for
large documents. -/
def limit? (key : PassKey) : Option Nat :=
  match key.size, key.kind with
  | .large, _ => none
  | .extraLarge, _ => none
  | _, .linesOnly => some 16
  | _, _ => some 100

/-- The complaint about a key, if its average is over the limit. -/
def slowIssue? (m : Measurement) (key : PassKey) : Option String := do
  let time ← m.averages.lookup key
  let limit ← limit? key
  if limit * 1000000 < time then
    some (key.kind.label ++ " passes on " ++ key.size.name ++ " documents exceed " ++
      Nat.repr limit ++ "ms: " ++ Nat.repr (time / 1000000) ++ "ms")
  else none

/-- The complaints about the measurements. Edits must mostly stay local. -/
def issues (m : Measurement) : List String :=
  PassKey.all.filterMap m.slowIssue? ++
    if m.repairRatio > 0.5 then
      ["Repair ratio above 50%: " ++ Decimal.fixed 1 (m.repairRatio * 100) ++ "%"]
    else []

end Measurement

end LexPaint
