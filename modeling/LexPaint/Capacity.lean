import LexPaint.Fault
/-!
# Capacities of counters

Metrics are summed up in counters that hold a limited range. A sum that leaves the range is a fault
and never wraps around. Averages divide by a number of passes of which only the lowest bits count,
so below that many passes an average is the plain quotient.

## Main definitions

* `Capacity.ofCount`, `Capacity.ofTime`: the bounds of counters.
* `Capacity.share`: the part of a time that falls to one of several passes.
-/

namespace LexPaint.Capacity

/-- The bound of counted passes and bytes: they are held in 64 bits. -/
def ofCount : Nat :=
  18446744073709551616

/-- The bound of durations in nanoseconds: their whole seconds are held in 64 bits. -/
def ofTime : Nat :=
  18446744073709551616000000000

/-- What a number of passes amounts to as a divisor: its lowest 32 bits. -/
def divisor (passes : Nat) : Nat :=
  passes % 4294967296

/-- The time of one of several passes on average, rounded down. -/
def share (time passes : Nat) : Nat :=
  time / divisor passes

/-- Below its capacity the divisor is the number of passes. -/
theorem divisor_of_lt {passes : Nat} (h : passes < 4294967296) : divisor passes = passes :=
  Nat.mod_eq_of_lt h

/-- So the share of a pass is the quotient. -/
theorem share_of_lt {time passes : Nat} (h : passes < 4294967296) :
    share time passes = time / passes := by
  rw [share, divisor_of_lt h]

end LexPaint.Capacity
