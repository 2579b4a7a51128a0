/-!
# Binary64 numbers

The reals of a program are IEEE 754 doubles. They are held as sign, mantissa and exponent, so that
reading and writing them is exact integer arithmetic.
-/

namespace StreamLoom

/-- A double. A finite one is `mantissa * 2 ^ exponent`, where the mantissa has 53 bits unless the
exponent is the least one. -/
inductive Binary64 where
  | nan
  | infinite (negative : Bool)
  | finite (negative : Bool) (mantissa : Nat) (exponent : Int)
deriving DecidableEq, Repr

namespace Binary64

/-- The exponent of the numbers nearest to zero. -/
def minExponent : Int := -1074

/-- The exponent of the numbers furthest from zero. -/
def maxExponent : Int := 971

/-- The mantissa bit that every normal double has, and that is not stored. -/
def hiddenBit : Nat := 0x10000000000000

/-- The stored bit of negative doubles. -/
def signBit : Nat := 0x8000000000000000

def zero : Binary64 := finite false 0 minExponent

/-- `x * 2 ^ e` as a numerator and a denominator. -/
def shifted (num den : Nat) (e : Int) : Nat × Nat :=
  if e ≥ 0 then (num * Nat.pow 2 e.toNat, den) else (num, den * Nat.pow 2 (-e).toNat)

/-- The integer nearest to a quotient, where a tie goes to the even neighbour. -/
def roundDiv (num den : Nat) : Nat :=
  let q := num / den
  let r := num % den
  if 2 * r > den ∨ (2 * r = den ∧ q % 2 = 1) then q + 1 else q

/-- The exponent at which a positive quotient has a mantissa of 53 bits. -/
def exponentOf (num den : Nat) : Int :=
  let e : Int := (num.log2 : Int) - den.log2 - 52
  let (n, d) := shifted num den (-e)
  max minExponent (if n < hiddenBit * d then e - 1 else e)

/-- The double nearest to a quotient, unless it is too large. -/
def ofQuotient (negative : Bool) (num den : Nat) : Option Binary64 :=
  if num = 0 then some (finite negative 0 minExponent)
  else
    let e := exponentOf num den
    let (n, d) := shifted num den (-e)
    let m := roundDiv n d
    let (m, e) := if m = 2 * hiddenBit then (hiddenBit, e + 1) else (m, e)
    if e > maxExponent then none else some (finite negative m e)

/-- The 64 bits of the interchange format. -/
def bits : Binary64 → Nat
  | nan => 0x7ff8000000000000
  | infinite negative => (if negative then signBit else 0) + 0x7ff0000000000000
  | finite negative m e =>
    (if negative then signBit else 0) +
      if m < hiddenBit then m else (e + 1075).toNat * hiddenBit + (m - hiddenBit)

end Binary64

end StreamLoom
