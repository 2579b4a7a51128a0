import StreamLoom.PointSet.Basic

/-!
# Relations between integer points

A relation holds between points of an input space and points of an output space. Like a set it is
described by constraints, over the input dimensions, then the output dimensions, then locals which
are existentially quantified. Relations describe what a statement reads and writes, and which points
depend on which.
-/

namespace StreamLoom

/-- The pairs of points for which some values of the locals satisfy the constraints. -/
structure Relation where
  source : String
  target : String
  inputs : Nat
  outputs : Nat
  locals : Nat
  cons : List Constraint
deriving DecidableEq, Repr

namespace Relation

/-- The number of coordinates of a pair. -/
def dims (m : Relation) : Nat := m.inputs + m.outputs

/-- The number of variables of the constraints. -/
def vars (m : Relation) : Nat := m.dims + m.locals

def rename (m : Relation) (source target : String) : Relation := { m with source, target }

/-- The pairs that also satisfy constraints over their coordinates. -/
def constrain (m : Relation) (cs : List Constraint) : Relation :=
  { m with cons := m.cons ++ cs.map (·.extend m.locals) }

/-- The set of pairs that a relation holds between. -/
def pairs (m : Relation) : PointSet :=
  ⟨m.source ++ "->" ++ m.target, m.dims, m.locals, m.cons⟩

variable [Arithmetic]

/-- The relation that takes each point to the values of affine rows. -/
def ofRows (source : String) (inputs : Nat) (target : String) (rows : List Affine) : Relation :=
  let n := inputs + rows.length
  ⟨source, target, inputs, rows.length, 0, (rows.zipIdx).map fun (row, o) =>
    .equal (.var n (inputs + o)) (row.remap n (List.range inputs))⟩

def identity (source target : String) (dims : Nat) : Relation :=
  ofRows source dims target ((List.range dims).map (Affine.var dims))

/-- The converse relation. -/
def reverse (m : Relation) : Relation :=
  let places := List.range' m.outputs m.inputs ++ List.range m.outputs ++
    List.range' m.dims m.locals
  ⟨m.target, m.source, m.outputs, m.inputs, m.locals, m.cons.map (·.remap m.vars places)⟩

/-- The points that are related to some output point. -/
def domain (m : Relation) : PointSet :=
  PointSet.simplify ⟨m.source, m.inputs, m.outputs + m.locals, m.cons⟩

/-- The points that some input point is related to. -/
def range (m : Relation) : PointSet := m.reverse.domain

/-- The pairs whose input point lies in a set. -/
def intersectDomain (m : Relation) (s : PointSet) : Relation :=
  let places := List.range s.dims ++ List.range' m.vars s.locals
  { m with
    locals := m.locals + s.locals
    cons := m.cons.map (·.extend s.locals) ++ s.cons.map (·.remap (m.vars + s.locals) places) }

/-- The pairs whose output point lies in a set. -/
def intersectRange (m : Relation) (s : PointSet) : Relation :=
  (m.reverse.intersectDomain s).reverse

/-- The same relation without the locals that can be removed exactly. -/
def simplify (m : Relation) : Relation :=
  let s := m.pairs.simplify
  { m with locals := s.locals, cons := s.cons }

/-- The composition of a relation with another one on its outputs. The points in between become
locals. -/
def compose (m o : Relation) : Relation :=
  let ends := m.inputs + o.outputs
  let n := ends + m.outputs + m.locals + o.locals
  let left := List.range m.inputs ++ List.range' ends (m.outputs + m.locals)
  let right := List.range' ends m.outputs ++ List.range' m.inputs o.outputs ++
    List.range' (ends + m.outputs + m.locals) o.locals
  simplify ⟨m.source, o.target, m.inputs, o.outputs, m.outputs + m.locals + o.locals,
    m.cons.map (·.remap n left) ++ o.cons.map (·.remap n right)⟩

/-- The points that the points of a set are related to. -/
def image (m : Relation) (s : PointSet) : PointSet := (m.intersectDomain s).range

def isEmpty (m : Relation) : Bool := m.pairs.isEmpty

/-- The range of an objective over the coordinates of the pairs. -/
def bound (m : Relation) (objective : Affine) : Option Interval := m.pairs.bound objective

def text (m : Relation) : String :=
  let ins := Text.numbered "i" m.inputs
  let outs := Text.numbered "o" m.outputs
  PointSet.describe (m.source ++ Text.tuple ins ++ " -> " ++ m.target ++ Text.tuple outs)
    (ins ++ outs ++ Text.numbered "e" m.locals) m.dims m.cons

end Relation

end StreamLoom
