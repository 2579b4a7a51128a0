import StreamLoom.Arithmetic.Basic
import StreamLoom.Fault

/-!
# Quotients, remainders and divisors

Three roundings of a quotient are used: towards zero when a coefficient is divided by a known
factor, and towards either infinity when a bound is. Remainders are never negative, which is what
addressing a circular buffer needs.

Each operation is total; the forms that end in `?` report a zero divisor as a fault.
-/

namespace StreamLoom

namespace Arithmetic

variable [Arithmetic]

/-- The absolute value; the least word has none and stands for itself. -/
def abs (x : Int) : Int :=
  if x < 0 then fit (-x) else x

/-- The quotient rounded towards zero. -/
def truncDiv (a b : Int) : Int :=
  fit (a.tdiv b)

/-- The quotient rounded towards negative infinity. -/
def floorDiv (a b : Int) : Int :=
  fit (a.fdiv b)

/-- The quotient rounded towards positive infinity. -/
def ceilDiv (a b : Int) : Int :=
  fit (-floorDiv (fit (-a)) b)

/-- The remainder `r` with `0 ≤ r < |b|`. -/
def residue (a b : Int) : Int :=
  a % b

/-- Euclid's algorithm on two integers of any sign. -/
def euclid (a b : Int) : Int :=
  if b = 0 then a else euclid b (a.tmod b)
termination_by b.natAbs
decreasing_by
  rw [Int.natAbs_tmod]
  exact Nat.mod_lt _ (by omega)

/-- The greatest common divisor, where zero divides only itself. -/
def gcd (a b : Int) : Int :=
  euclid (abs a) (abs b)

/-- The greatest common divisor of several integers. -/
def gcdOf (xs : List Int) : Int :=
  xs.foldl gcd 0

/-- The least common multiple. -/
def lcm (a b : Int) : Int :=
  if a = 0 ∨ b = 0 then 0 else fit (abs (truncDiv a (gcd a b)) * abs b)

def product (xs : List Int) : Int :=
  xs.foldl (fun acc x => fit (acc * x)) 1

/-! ### Guarded forms -/

def nonzero (b : Int) : Except Fault Unit :=
  require (b != 0) .divideByZero

omit [Arithmetic] in
theorem nonzero_eq_ok {b : Int} (hb : b ≠ 0) : nonzero b = .ok () := by
  simp [nonzero, require, hb]

def floorDiv? (a b : Int) : Except Fault Int := do
  nonzero b
  return floorDiv a b

theorem floorDiv?_eq {b : Int} (hb : b ≠ 0) (a : Int) : floorDiv? a b = .ok (floorDiv a b) :=
  congrArg (· >>= fun _ => pure (floorDiv a b)) (nonzero_eq_ok hb)

def ceilDiv? (a b : Int) : Except Fault Int := do
  nonzero b
  return ceilDiv a b

theorem ceilDiv?_eq {b : Int} (hb : b ≠ 0) (a : Int) : ceilDiv? a b = .ok (ceilDiv a b) :=
  congrArg (· >>= fun _ => pure (ceilDiv a b)) (nonzero_eq_ok hb)

def truncDiv? (a b : Int) : Except Fault Int := do
  nonzero b
  return truncDiv a b

def residue? (a b : Int) : Except Fault Int := do
  nonzero b
  return residue a b

omit [Arithmetic] in
theorem residue?_eq {b : Int} (hb : b ≠ 0) (a : Int) : residue? a b = .ok (residue a b) :=
  congrArg (· >>= fun _ => pure (residue a b)) (nonzero_eq_ok hb)

end Arithmetic

end StreamLoom
