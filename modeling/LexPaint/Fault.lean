/-!
# Faults of arithmetic

All positions in a document are byte offsets. An operation that is asked for a range outside the
text, for a cut through the middle of a character, or for a negative offset has no answer. Neither
has a sum that its counter cannot hold, or an average over nothing. The operation reports a `Fault`
instead of inventing an answer, and whoever called it stops.

## Main definitions

* `Fault`: why a computation has no answer.
* `Checked`: a computation that may end in a fault.
* `demand`, `minus`: the two ways a fault arises.
-/

namespace LexPaint

/-- The reasons why an operation on offsets or counters has no answer. -/
inductive Fault where
  /-- An index or a range reaches past the end of the text, or its bounds are out of order. -/
  | outOfRange
  /-- A cut would fall between the bytes of one character. -/
  | splitsCharacter
  /-- A difference of offsets would be negative. -/
  | belowZero
  /-- A sum would not fit its counter. -/
  | aboveCapacity
  /-- An average would divide by zero. -/
  | dividesByZero
deriving DecidableEq, Repr, Inhabited

/-- A computation on offsets or counters: either its value or the fault that stopped it. -/
abbrev Checked (α : Type) : Type := Except Fault α

/-- Goes on if the condition holds and stops with the given fault otherwise. -/
def demand (condition : Bool) (fault : Fault) : Checked Unit :=
  if condition then .ok () else .error fault

/-- The difference of two offsets, which must not be negative. -/
def minus (a b : Nat) : Checked Nat :=
  if b ≤ a then .ok (a - b) else .error .belowZero

/-- A demand is met if and only if its condition holds. -/
theorem demand_eq_ok_iff {condition : Bool} {fault : Fault} :
    demand condition fault = .ok () ↔ condition = true := by
  cases condition <;> simp [demand]

/-- A difference is defined if and only if it is not negative. -/
theorem minus_eq_ok_iff {a b d : Nat} : minus a b = .ok d ↔ a = d + b := by
  unfold minus
  split
  · simp only [Except.ok.injEq]; omega
  · simp only [reduceCtorEq, false_iff]; omega

end LexPaint
