import StreamLoom.PointSet.Basic

/-!
# Guarded operations on sets

The operations of a set expect operands of matching dimensions. The operations here check this
first, and report a fault when it does not hold.
-/

namespace StreamLoom.PointSet

/-- Eliminating variables needs every constraint to be over all of them. -/
def regular (vars : Nat) (cons : List Constraint) : Except Fault Unit :=
  require (cons.all (·.vars == vars)) (.broken "constraint has incorrect number of variables")

/-- Moving variables needs a place for each variable of every constraint. -/
def movable (vars : Nat) (cons : List Constraint) : Except Fault Unit :=
  require (cons.all (·.vars ≤ vars)) .indexOutOfRange

def isRegular (s : PointSet) : Except Fault Unit := regular s.vars s.cons

/-- The set of all points of a given dimension. -/
def full? (name : String) (dims : Int) : Except Fault PointSet := do
  return full name (← countOf dims)

/-- Constraints are over the dimensions of a set only. -/
def fitting (dims : Int) (cs : List Constraint) : Except Fault Unit :=
  cs.forM fun c => require (c.vars == dims) (.broken ("constraint over " ++ toString c.vars ++
    " variables applied to set of dimension " ++ toString dims))

variable [Arithmetic]

def constrain? (s : PointSet) (cs : List Constraint) : Except Fault PointSet := do
  fitting s.dims cs
  return s.constrain cs

def ofConstraints? (name : String) (dims : Int) (cs : List Constraint) : Except Fault PointSet := do
  fitting dims cs
  return (← full? name dims).constrain cs

def fix? (s : PointSet) (dim value : Int) : Except Fault PointSet := do
  require (0 ≤ dim && dim < s.dims) .indexOutOfRange
  return s.fix dim.toNat value

def intersect? (s o : PointSet) : Except Fault PointSet := do
  require (s.dims == o.dims) (.broken ("cannot intersect sets of dimension " ++ toString s.dims ++
    " and " ++ toString o.dims))
  movable o.vars o.cons
  return s.intersect o

def product? (s o : PointSet) : Except Fault PointSet := do
  movable s.vars s.cons
  movable o.vars o.cons
  return s.product o

def isEmpty? (s : PointSet) : Except Fault Bool := do
  s.isRegular
  return s.isEmpty

def isIntegerEmpty? (s : PointSet) : Except Fault Bool := do
  s.isRegular
  return s.isIntegerEmpty

def bound? (s : PointSet) (objective : Affine) : Except Fault (Option Interval) := do
  require (objective.vars == s.dims) (.broken "objective has incorrect number of variables")
  s.isRegular
  return s.bound objective

def maximum? (s : PointSet) (objective : Affine) : Except Fault (Option Extended) := do
  return (← s.bound? objective).map (·.upper)

def minimum? (s : PointSet) (objective : Affine) : Except Fault (Option Extended) := do
  return (← s.bound? objective).map (·.lower)

/-- A projection reads the coefficient of each dimension in every row that is left. -/
def projection? (s : PointSet) (dims : List Int) : Except Fault PointSet := do
  s.isRegular
  let inside := dims.filter fun (d : Int) => 0 ≤ d && d < s.vars
  let rows := System.project s.cons (s.others (inside.map Int.toNat))
  require (inside.length == dims.length || (rows.getD []).isEmpty) .indexOutOfRange
  return s.projection (dims.map fun d => if d < 0 then s.vars else d.toNat)

def contains? (s : PointSet) (point : List Int) : Except Fault Bool := do
  require (point.length == s.dims) (.broken "point has incorrect dimension")
  s.isRegular
  return s.contains point

def points? (s : PointSet) : Except Fault (Except Unbounded (List (List Int))) := do
  s.isRegular
  return s.points

def simplify? (s : PointSet) : Except Fault PointSet := do
  s.isRegular
  return s.simplify

def text? (s : PointSet) : Except Fault String := do
  s.cons.forM (·.form.named s.vars)
  return s.text

end StreamLoom.PointSet
