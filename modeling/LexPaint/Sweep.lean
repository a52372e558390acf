import LexPaint.Fault
/-!
# Sweeps

Every primitive looks at its scope from left to right: it goes to the next candidate, accepts or
refuses it, and continues at some later offset. A sweep is that loop, for any way to make a step.
What a primitive maps is thus a function of the text and of what earlier primitives have mapped,
and painting comes after it.

## Main definitions

* `Sweep.Move`: one step, which may carry a state of its own along.
* `Sweep.Harvest`: what was accepted, and how many candidates were refused.
* `Sweep.run`, `Sweep.collect`: the loop.

## Implementation notes

A step must advance. A step that stays where it is ends the sweep after its candidate, so an empty
mark is looked at once.
-/

namespace LexPaint.Sweep

variable {σ α : Type}

/-- What a step makes of the offset it has looked at. -/
inductive Verdict (α : Type) where
  /-- There was no candidate. -/
  | nothing
  /-- There was a candidate that does not count. -/
  | refused
  /-- There was a candidate that counts. -/
  | accepted (item : α)

/-- One step of a sweep. -/
inductive Move (σ α : Type) where
  /-- No candidate is left. -/
  | stop
  /-- Continues at the offset `next` with the state `state`. -/
  | go (verdict : Verdict α) (next : Nat) (state : σ)

/-- The outcome of a sweep. -/
structure Harvest (α : Type) where
  /-- The accepted candidates, in order. -/
  items : Array α
  /-- The number of refused candidates. -/
  refusals : Nat

namespace Harvest

/-- Nothing found. -/
def empty : Harvest α := ⟨#[], 0⟩

/-- Takes one verdict in. -/
def add (h : Harvest α) : Verdict α → Harvest α
  | .nothing => h
  | .refused => ⟨h.items, h.refusals + 1⟩
  | .accepted item => ⟨h.items.push item, h.refusals⟩

/-- The number of candidates, accepted or not. -/
def tested (h : Harvest α) : Nat :=
  h.items.size + h.refusals

end Harvest

/-- Sweeps from `pos` up to `hi` and adds to a harvest. A step beyond `hi` is out of range. -/
def run (step : Nat → σ → Checked (Move σ α)) (hi pos : Nat) (s : σ) (h : Harvest α) :
    Checked (Harvest α × σ) :=
  match step pos s with
  | .error fault => .error fault
  | .ok .stop => .ok (h, s)
  | .ok (.go verdict next s') =>
    if hi < next then .error .outOfRange
    else if pos < next then run step hi next s' (h.add verdict)
    else .ok (h.add verdict, s')
termination_by hi - pos

/-- What a sweep from `pos` up to `hi` accepts and refuses. -/
def collect (step : Nat → σ → Checked (Move σ α)) (hi pos : Nat) (s : σ) :
    Checked (Harvest α) := do
  return (← run step hi pos s .empty).1

end LexPaint.Sweep
