import StreamLoom.Decimal.Binary64

/-!
# Shortest decimals

A double is written with the fewest decimal digits that read back as the same double. The reals that
round to a double form an interval around it, whose ends belong to it when the mantissa is even. For
one digit, two digits and so on, the two decimals next to the double are tried; the first length
with a hit wins, and of two hits the nearer.
-/

namespace StreamLoom

/-- The decimal `digits * 10 ^ exponent`. -/
structure Decimal where
  digits : Nat
  exponent : Int
deriving DecidableEq, Repr

namespace Decimal

/-- A decimal as a numerator and a denominator. -/
def quotient (d : Decimal) : Nat × Nat :=
  if d.exponent ≥ 0 then (d.digits * Nat.pow 10 d.exponent.toNat, 1)
  else (d.digits, Nat.pow 10 (-d.exponent).toNat)

/-- Removes trailing zeros from a number of at most as many digits as the count says. -/
def strip : Nat → Decimal → Decimal
  | 0, d => d
  | count + 1, d =>
    if d.digits ≠ 0 ∧ d.digits % 10 = 0 then strip count ⟨d.digits / 10, d.exponent + 1⟩ else d

/-- The digits of a decimal as characters. -/
def characters (d : Decimal) : List Char := Nat.toDigits 10 d.digits

/-- The exponent that the first digit stands for. -/
def leading (d : Decimal) : Int := d.exponent + d.characters.length - 1

end Decimal

namespace Binary64

/-- Compares two quotients. -/
def lessOrEqual (a b : Nat × Nat) : Bool := a.1 * b.2 ≤ b.1 * a.2

def less (a b : Nat × Nat) : Bool := a.1 * b.2 < b.1 * a.2

/-- The reals that round to `m * 2 ^ e`: the ends of the interval as quotients. Below a power of two
the neighbours are half as far apart. -/
def roundingEnds (m : Nat) (e : Int) : (Nat × Nat) × (Nat × Nat) :=
  let below := if m = hiddenBit ∧ e > minExponent then shifted (4 * m - 1) 1 (e - 2)
    else shifted (2 * m - 1) 1 (e - 1)
  (below, shifted (2 * m + 1) 1 (e - 1))

/-- Whether a decimal reads back as `m * 2 ^ e`. -/
def readsBack (m : Nat) (e : Int) (d : Decimal) : Bool :=
  let (lo, hi) := roundingEnds m e
  if m % 2 = 0 then lessOrEqual lo d.quotient && lessOrEqual d.quotient hi
  else less lo d.quotient && less d.quotient hi

/-- The power of ten that the first digit of a positive quotient stands for. -/
def magnitude (num den : Nat) : Int :=
  let guess : Int := ((num.log2 : Int) - den.log2) * 30103 / 100000
  if lessOrEqual (Decimal.quotient ⟨1, guess + 1⟩) (num, den) then guess + 1
  else if less (num, den) (Decimal.quotient ⟨1, guess⟩) then guess - 1
  else guess

/-- Of the two decimals with a given last place next to `m * 2 ^ e`, the nearest that reads back. -/
def nearestAt (m : Nat) (e : Int) (place : Int) : Option Decimal :=
  let (num, den) := shifted m 1 e
  let scaledNum := if place ≥ 0 then num else num * Nat.pow 10 (-place).toNat
  let scaledDen := if place ≥ 0 then den * Nat.pow 10 place.toNat else den
  let low : Decimal := ⟨scaledNum / scaledDen, place⟩
  let high : Decimal := ⟨scaledNum / scaledDen + 1, place⟩
  let rest := scaledNum % scaledDen
  let lowFirst := 2 * rest < scaledDen || (2 * rest = scaledDen && low.digits % 2 = 0)
  ((if lowFirst then [low, high] else [high, low]).filter (readsBack m e)).head?

/-- Tries as many further digits as the count says. -/
def shortestFrom (m : Nat) (e : Int) (place : Int) : Nat → Decimal
  | 0 => (nearestAt m e place).getD ⟨0, 0⟩
  | count + 1 =>
    match nearestAt m e place with
    | some d => d
    | none => shortestFrom m e (place - 1) count

/-- The shortest decimal of a finite double, without its sign. Seventeen digits always suffice. -/
def shortest (m : Nat) (e : Int) : Decimal :=
  if m = 0 then ⟨0, 0⟩
  else
    let (num, den) := shifted m 1 e
    (shortestFrom m e (magnitude num den) 17).strip 20

/-- Whether the shortest decimal is the double itself. -/
def isExactDecimal (m : Nat) (e : Int) : Bool :=
  let (a, b) := (shortest m e).quotient
  let (num, den) := shifted m 1 e
  a * den = num * b

end Binary64

/-! ### Notation -/

namespace Decimal

/-- An exponent with its sign and at least two digits. -/
def exponentText (x : Int) : String :=
  let digits := toString x.natAbs
  "e" ++ (if x < 0 then "-" else "+") ++ (if digits.length < 2 then "0" else "") ++ digits

/-- One digit before the point, the others after it, then the exponent. -/
def scientific (d : Decimal) : String :=
  match d.characters with
  | [] => ""
  | c :: rest =>
    String.singleton c ++ (if rest.isEmpty then "" else "." ++ String.ofList rest) ++
      exponentText d.leading

/-- All digits in place, with as many zeros as needed. -/
def positional (d : Decimal) : String :=
  let chars := d.characters
  let x := d.leading
  if x < 0 then "0." ++ String.ofList (List.replicate (-x - 1).toNat '0' ++ chars)
  else
    let whole := x.toNat + 1
    let padded := chars ++ List.replicate (whole - chars.length) '0'
    let fraction := padded.drop whole
    String.ofList (padded.take whole) ++
      if fraction.isEmpty then "" else "." ++ String.ofList fraction

/-- Numbers from a ten-thousandth up to a million are written positionally. -/
def general (d : Decimal) : String :=
  if d.leading < -4 ∨ d.leading ≥ 6 then d.scientific else d.positional

end Decimal

/-- The text of a double in a listing. -/
def Binary64.text : Binary64 → String
  | .nan => "NaN"
  | .infinite negative => if negative then "-Inf" else "+Inf"
  | .finite negative m e => (if negative then "-" else "") ++ (shortest m e).general

end StreamLoom
