/-!
# Numbers with fixed places

A double is a whole number times a power of two, so it has an exact decimal value. Writing it with
a fixed number of places rounds that exact value to the nearest such decimal, and a tie goes to the
even neighbour.

## Main definitions

* `Decimal.roundDiv`: a quotient rounded to the nearest whole number.
* `Decimal.parts`: a non-negative double as a whole number times a power of two.
* `Decimal.fixed`: a non-negative double with a fixed number of places.
-/

namespace LexPaint.Decimal

/-- The whole number nearest to a quotient, the even one of two that are equally near. -/
def roundDiv (numerator denominator : Nat) : Nat :=
  let quotient := numerator / denominator
  let remainder := numerator % denominator
  if 2 * remainder < denominator then quotient
  else if denominator < 2 * remainder then quotient + 1
  else if quotient % 2 = 0 then quotient
  else quotient + 1

/-- The significand of a finite double, and the exponent of two that it is multiplied by, with
1075 added. The sign is left out. -/
def parts (x : Float) : Nat × Nat :=
  let bits := x.toBits.toNat % Nat.pow 2 63
  let hidden := Nat.pow 2 52
  let fraction := bits % hidden
  let exponent := bits / hidden
  if exponent = 0 then (fraction, 1) else (fraction + hidden, exponent)

/-- A non-negative double times a power of ten, rounded to a whole number. -/
def scaled (places : Nat) (x : Float) : Nat :=
  let (significand, exponent) := parts x
  let numerator := significand * Nat.pow 10 places
  if 1075 ≤ exponent then numerator * Nat.pow 2 (exponent - 1075)
  else roundDiv numerator (Nat.pow 2 (1075 - exponent))

/-- The decimal digits of a number, at least so many of them. -/
def padded (width n : Nat) : String :=
  let digits := Nat.repr n
  String.ofList (List.replicate (width - digits.length) '0') ++ digits

/-- A non-negative double with a fixed number of places. -/
def fixed (places : Nat) (x : Float) : String :=
  let n := scaled places x
  let unit := Nat.pow 10 places
  let whole := Nat.repr (n / unit)
  if places = 0 then whole else whole ++ "." ++ padded places (n % unit)

end LexPaint.Decimal
