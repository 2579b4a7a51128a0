import StreamLoom.Relation.Mapping
import StreamLoom.PointSet.Guarded

/-!
# Guarded operations on relations

The operations of a relation with the dimensions of their operands checked first.
-/

namespace StreamLoom

namespace Relation

variable [Arithmetic]

def isMovable (m : Relation) : Except Fault Unit := PointSet.movable m.vars m.cons

def isRegular (m : Relation) : Except Fault Unit := PointSet.regular m.vars m.cons

/-- The relation with the given constraints and no locals. -/
def ofConstraints? (source : String) (inputs : Int) (target : String) (outputs : Int)
    (cs : List Constraint) : Except Fault Relation := do
  let n := fit (inputs + outputs)
  cs.forM fun c => require (c.vars == n) (.broken ("constraint over " ++ toString c.vars ++
    " variables applied to map of dimension " ++ toString n))
  return ⟨source, target, ← countOf inputs, ← countOf outputs, 0, cs⟩

/-- The relation with the given constraints, the last variables of which are locals. -/
def withLocals? (source : String) (inputs : Int) (target : String) (outputs locals : Int)
    (cs : List Constraint) : Except Fault Relation := do
  let n := fit (inputs + outputs + locals)
  cs.forM fun c => require (c.vars == n) (.broken ("constraint over " ++ toString c.vars ++
    " variables applied to map with " ++ toString n ++ " variables"))
  return ⟨source, target, ← countOf inputs, ← countOf outputs, ← countOf locals, cs⟩

/-- Every row of a function is over its inputs. -/
def rowsOver (inputs : Int) (rows : List Affine) : Except Fault Unit :=
  require (rows.all fun row => row.vars == inputs)
    (.broken "affine row has incorrect number of variables")

def ofRows? (source : String) (inputs : Int) (target : String) (rows : List Affine) :
    Except Fault Relation := do
  let n ← countOf inputs
  rowsOver inputs rows
  return ofRows source n target rows

def identity? (source target : String) (dims : Int) : Except Fault Relation := do
  return identity source target (← countOf dims)

def reverse? (m : Relation) : Except Fault Relation := do
  m.isMovable
  return m.reverse

def domain? (m : Relation) : Except Fault PointSet := do
  m.isRegular
  return m.domain

def range? (m : Relation) : Except Fault PointSet := do
  (← m.reverse?).domain?

def intersectDomain? (m : Relation) (s : PointSet) : Except Fault Relation := do
  require (s.dims == m.inputs) (.broken ("cannot restrict domain of dimension " ++
    toString m.inputs ++ " with set of dimension " ++ toString s.dims))
  PointSet.movable s.vars s.cons
  return m.intersectDomain s

def intersectRange? (m : Relation) (s : PointSet) : Except Fault Relation := do
  let restricted ← (← m.reverse?).intersectDomain? s
  restricted.reverse?

def compose? (m o : Relation) : Except Fault Relation := do
  require (m.outputs == o.inputs) (.broken ("cannot compose map with range of dimension " ++
    toString m.outputs ++ " and map with domain of dimension " ++ toString o.inputs))
  m.isMovable
  o.isMovable
  return m.compose o

def image? (m : Relation) (s : PointSet) : Except Fault PointSet := do
  (← m.intersectDomain? s).range?

def isEmpty? (m : Relation) : Except Fault Bool := m.pairs.isEmpty?

def bound? (m : Relation) (objective : Affine) : Except Fault (Option Interval) :=
  m.pairs.bound? objective

def simplify? (m : Relation) : Except Fault Relation := do
  m.isRegular
  return m.simplify

def mapping? (m : Relation) : Except Fault (Except InvalidMap Mapping) := do
  m.isRegular
  return m.mapping

/-- Coordinates are only looked at where a constraint is left, and only those of a pair can be
followed. -/
def slope? (m : Relation) (input output : Int) : Except Fault (Option Int) := do
  m.isRegular
  let y := m.inputs + output
  let s := m.simplify
  if s.cons.isEmpty then return none
  require (0 ≤ input && input < s.vars && 0 ≤ y && y < s.vars) .indexOutOfRange
  let suggests := s.cons.any fun c => (candidate c input.toNat y.toNat).isSome
  require (!suggests || (input < m.dims && y < m.dims)) .indexOutOfRange
  if output < 0 then
    return s.cons.findSome? fun c =>
      (candidate c input.toNat y.toNat).filter (m.follows input.toNat y.toNat)
  return m.slope input.toNat output.toNat

def text? (m : Relation) : Except Fault String := do
  m.cons.forM (·.form.named m.vars)
  return m.text

end Relation

namespace Mapping

variable [Arithmetic]

/-- The function with the given rows. Where it has none, any number of inputs will do. -/
def ofRows? (inputs : Int) (rows : List Affine) : Except Fault Mapping := do
  Relation.rowsOver inputs rows
  return ⟨inputs.toNat, rows⟩

def eval? (g : Mapping) (point : List Int) : Except Fault (List Int) :=
  g.rows.mapM (·.eval? point)

def coefficient? (g : Mapping) (input output : Int) : Except Fault Int := do
  (← elementAt g.rows output).coeff? input

def constant? (g : Mapping) (output : Int) : Except Fault Int := do
  return (← elementAt g.rows output).const

end Mapping

end StreamLoom
