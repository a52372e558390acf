import LexPaint.Text.Search
/-!
# Mark finders

A mark finder answers which of several marks comes next. It remembers for every mark where it was
last seen, so a rare mark is not searched again for every hit of a frequent one.

## Main definitions

* `MarkFinder`: the marks, each with what is known about its next occurrence.
* `MarkFinder.find`: the next mark from an offset on, with its length.

## Implementation notes

What is remembered stays right as long as the offsets asked about do not decrease.
-/

namespace LexPaint

/-- What a finder knows about the next occurrence of a mark. -/
inductive NextHit where
  /-- It was not searched yet. -/
  | unknown
  /-- It was last found at this offset. -/
  | hit (pos : Nat)
  /-- It does not occur any more. -/
  | exhausted
deriving DecidableEq, Repr, Inhabited

namespace NextHit

/-- Whether the mark has to be searched again for an offset. -/
def isStale (n : NextHit) (pos : Nat) : Bool :=
  match n with
  | unknown => true
  | hit p => p < pos
  | exhausted => false

end NextHit

/-- Several marks, each with what is known about its next occurrence. -/
structure MarkFinder where
  /-- The marks in the order of preference, with their next occurrences. -/
  slots : List (Mark × NextHit)
deriving DecidableEq, Repr, Inhabited

namespace MarkFinder

/-- A finder that has not searched yet. -/
def new (marks : List Mark) : MarkFinder :=
  ⟨marks.map (fun m => (m, .unknown))⟩

/-- The next occurrence of a mark from `pos` on that ends by `hi`, remembered or searched. -/
def refresh (t : Text) (pos hi : Nat) (slot : Mark × NextHit) : Mark × NextHit :=
  if slot.2.isStale pos then
    match t.checkRange pos hi with
    | .error _ => (slot.1, .exhausted)
    | .ok () =>
      match t.find slot.1 pos hi with
      | some p => (slot.1, .hit p)
      | none => (slot.1, .exhausted)
  else slot

/-- The nearer of the best hit so far and a further one, which has to be strictly nearer. -/
def nearer (best : Option (Nat × Nat)) (slot : Mark × NextHit) : Option (Nat × Nat) :=
  match slot.2, best with
  | .hit p, none => some (p, slot.1.length)
  | .hit p, some (q, length) => if p < q then some (p, slot.1.length) else some (q, length)
  | _, _ => best

/-- The offset and the length of the next mark from `pos` on that ends by `hi`, and the finder
after the search. Of marks that start at the same offset the first listed counts. -/
def find (f : MarkFinder) (t : Text) (pos hi : Nat) : Option (Nat × Nat) × MarkFinder :=
  let slots := f.slots.map (refresh t pos hi)
  (slots.foldl nearer none, ⟨slots⟩)

end MarkFinder

end LexPaint
