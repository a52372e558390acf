import LexPaint.Capacity
import LexPaint.Painter
/-!
# Metrics

How many passes of each kind a document took, how many bytes full passes went over, and how long
the passes lasted. Durations are whole nanoseconds. The average is kept beside the total, and it is
always computed from the sums, so metrics of several documents can be added up.

## Main definitions

* `Metrics`: the counts and times of passes.
* `Metrics.withPass`, `Metrics.merge`: the sums with one more pass, and of two documents.
* `Metrics.record`, `Metrics.absorb`: the same where counters have to hold the sums.
-/

namespace LexPaint

/-- The counts and times of passes. Times are in nanoseconds. -/
@[ext]
structure Metrics where
  /-- The time spent in all passes. -/
  totalTime : Nat
  /-- The number of full passes. -/
  fullPasses : Nat
  /-- The number of local passes. -/
  localPasses : Nat
  /-- The number of local passes that a full one had to follow. -/
  repairs : Nat
  /-- The bytes of the documents that full passes and repairs went over. -/
  bytesRescanned : Nat
  /-- The time of a pass on average, rounded down. -/
  averageTime : Nat
  /-- The time of the longest pass. -/
  maxTime : Nat
deriving DecidableEq, Repr, Inhabited

namespace Metrics

/-- No passes. -/
def zero : Metrics :=
  ⟨0, 0, 0, 0, 0, 0, 0⟩

/-- The number of passes of any kind. -/
def passes (m : Metrics) : Nat :=
  m.fullPasses + m.localPasses + m.repairs

/-- Computes the average from the sums, unless there are no passes yet. -/
def refreshAverage (m : Metrics) : Metrics :=
  if 0 < m.passes then { m with averageTime := Capacity.share m.totalTime m.passes } else m

/-- Counts a pass of a kind over so many bytes. -/
def countPass (m : Metrics) (kind : PassKind) (bytes : Nat) : Metrics :=
  match kind with
  | .full =>
    { m with fullPasses := m.fullPasses + 1, bytesRescanned := m.bytesRescanned + bytes }
  | .linesOnly => { m with localPasses := m.localPasses + 1 }
  | .repair => { m with repairs := m.repairs + 1, bytesRescanned := m.bytesRescanned + bytes }

/-- The sums after one more pass, whether or not the counters can hold them. -/
def withPass (m : Metrics) (kind : PassKind) (time bytes : Nat) : Metrics :=
  let counted := m.countPass kind bytes
  let summed := { counted with totalTime := m.totalTime + time }.refreshAverage
  { summed with maxTime := max m.maxTime time }

/-- The sums of two documents, whether or not the counters can hold them. -/
def merge (m other : Metrics) : Metrics :=
  refreshAverage
    { totalTime := m.totalTime + other.totalTime
      fullPasses := m.fullPasses + other.fullPasses
      localPasses := m.localPasses + other.localPasses
      repairs := m.repairs + other.repairs
      bytesRescanned := m.bytesRescanned + other.bytesRescanned
      averageTime := m.averageTime
      maxTime := max m.maxTime other.maxTime }

/-- Whether the counters can hold the sums. -/
def fits (m : Metrics) : Bool :=
  m.passes < Capacity.ofCount && m.bytesRescanned < Capacity.ofCount &&
    m.totalTime < Capacity.ofTime

/-- Whether the average, if there is one, has a divisor. -/
def hasDivisor (m : Metrics) : Bool :=
  m.passes == 0 || Capacity.divisor m.passes != 0

/-- Accepts sums that the counters can hold. -/
def accept (m : Metrics) : Checked Metrics := do
  demand m.fits .aboveCapacity
  demand m.hasDivisor .dividesByZero
  return m

/-- Adds a finished pass. -/
def record (m : Metrics) (kind : PassKind) (time bytes : Nat) : Checked Metrics :=
  (m.withPass kind time bytes).accept

/-- Adds the metrics of another document. -/
def absorb (m other : Metrics) : Checked Metrics :=
  (m.merge other).accept

/-- The share of edits that needed a repair. -/
def repairRatio (m : Metrics) : Float :=
  let edits := m.localPasses + m.repairs
  if edits = 0 then 0 else m.repairs.toFloat / edits.toFloat

/-! ### First facts -/

/-- Metrics are accepted, as they are, if and only if they fit and have a divisor. -/
theorem accept_eq_ok_iff {m checked : Metrics} :
    m.accept = .ok checked ↔ checked = m ∧ m.fits = true ∧ m.hasDivisor = true := by
  unfold accept demand
  cases m.fits <;> cases m.hasDivisor <;>
    simp [bind, Except.bind, pure, Except.pure, eq_comm]

/-- Below their capacity metrics have a divisor. -/
theorem hasDivisor_of_lt {m : Metrics} (h : m.passes < 4294967296) : m.hasDivisor = true := by
  simp only [hasDivisor, Capacity.divisor_of_lt h]
  by_cases h0 : m.passes = 0 <;> simp [h0]

end Metrics

end LexPaint
