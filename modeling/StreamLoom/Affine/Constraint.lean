import StreamLoom.Affine.Form

/-!
# Affine constraints

A constraint says that an affine form is zero, or that it is not negative. Dividing a constraint by
the greatest common divisor of its coefficients keeps its integer solutions: the constant of an
inequality is rounded down, and an equality whose constant is not divisible has no solution.
-/

namespace StreamLoom

/-- The constraint `form = 0` when it is an equality, and `form ≥ 0` otherwise. -/
structure Constraint where
  form : Affine
  equality : Bool
deriving DecidableEq, Repr

namespace Constraint

def coeffs (c : Constraint) : List Int := c.form.coeffs

def const (c : Constraint) : Int := c.form.const

def coeff (c : Constraint) (i : Nat) : Int := c.form.coeff i

def vars (c : Constraint) : Nat := c.form.vars

/-- The constraint `form ≥ 0`. -/
def atLeast (form : Affine) : Constraint := ⟨form, false⟩

/-- The constraint `form = 0`. -/
def zero (form : Affine) : Constraint := ⟨form, true⟩

def extend (c : Constraint) (k : Nat) : Constraint := { c with form := c.form.extend k }

/-- A constraint over `n` variables that no point satisfies. -/
def never (n : Nat) : Constraint := atLeast (.constant n (-1))

variable [Arithmetic]

/-- The constraint `l ≤ r`. -/
def le (l r : Affine) : Constraint := atLeast (r.sub l)

/-- The constraint `l < r`, which is `l + 1 ≤ r` over the integers. -/
def lt (l r : Affine) : Constraint := atLeast ((r.sub l).plus (-1))

/-- The constraint `l = r`. -/
def equal (l r : Affine) : Constraint := zero (l.sub r)

/-- The complement of an inequality; that of an equality is not convex. -/
def negate (c : Constraint) : Constraint := atLeast (c.form.neg.plus (-1))

def remap (c : Constraint) (n : Nat) (places : List Nat) : Constraint :=
  { c with form := c.form.remap n places }

def holds (c : Constraint) (point : List Int) : Bool :=
  if c.equality then c.form.eval point == 0 else c.form.eval point ≥ 0

/-- Negative terms are moved to the right, so that no term is subtracted. -/
def textWith (c : Constraint) (names : List String) : String :=
  let left : Affine := ⟨c.coeffs.map fun x => if x ≥ 0 then x else 0,
    if c.const ≥ 0 then c.const else 0⟩
  let right : Affine := ⟨c.coeffs.map fun x => if x ≥ 0 then 0 else fit (-x),
    if c.const ≥ 0 then 0 else fit (-c.const)⟩
  left.textWith names ++ (if c.equality then " = " else " >= ") ++ right.textWith names

def text (c : Constraint) : String := c.textWith (Text.numbered "x" c.vars)

/-! ### Lowest terms -/

/-- What remains of a constraint in lowest terms. -/
inductive Reduced where
  | never
  | always
  | proper (c : Constraint)

/-- The same equality, with its first coefficient positive. -/
def upright (form : Affine) : Affine :=
  match form.coeffs.find? (· ≠ 0) with
  | some c => if c < 0 then form.neg else form
  | none => form

/-- Divides a constraint by the greatest common divisor of its coefficients. -/
def reduce (c : Constraint) : Reduced :=
  let g := Arithmetic.gcdOf c.coeffs
  let coeffs := c.coeffs.map (Arithmetic.truncDiv · g)
  if g = 0 then
    if (if c.equality then c.const == 0 else c.const ≥ 0) then .always else .never
  else if !c.equality then
    .proper (atLeast ⟨coeffs, Arithmetic.floorDiv c.const g⟩)
  else if c.const.tmod g ≠ 0 then
    .never
  else
    .proper (zero (upright ⟨coeffs, Arithmetic.truncDiv c.const g⟩))

/-! ### Guarded forms -/

def le? (l r : Affine) : Except Fault Constraint := do
  r.sameVars l
  return le l r

def lt? (l r : Affine) : Except Fault Constraint := do
  r.sameVars l
  return lt l r

def equal? (l r : Affine) : Except Fault Constraint := do
  l.sameVars r
  return equal l r

def negate? (c : Constraint) : Except Fault Constraint := do
  require (!c.equality) (.broken "cannot negate an equality")
  return c.negate

def remap? (c : Constraint) (n : Int) (places : List Int) : Except Fault Constraint := do
  return { c with form := ← c.form.remap? n places }

def extend? (c : Constraint) (k : Int) : Except Fault Constraint := do
  return c.extend (← countOf k)

def holds? (c : Constraint) (point : List Int) : Except Fault Bool := do
  let _ ← c.form.eval? point
  return c.holds point

def textWith? (c : Constraint) (names : List String) : Except Fault String := do
  c.form.named names.length
  return c.textWith names

end Constraint

end StreamLoom
