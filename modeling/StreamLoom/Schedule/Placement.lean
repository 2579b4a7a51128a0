import StreamLoom.PointSet.Basic

/-!
# Placements

A placement says when each point of a statement is executed. The time of a point has a leading row
`θ`, which is an affine function of a single dimension, the carrier. Statements that execute at the
same `θ` follow their order, and points of one statement that do so follow their other dimensions.
-/

namespace StreamLoom

/-- The multiple of the variable at which a carrier is found, over `n` variables. -/
def Affine.carried (n start : Nat) (carrier : Option Nat) (scale : Int) : Affine :=
  match carrier with
  | some c => (constant n 0).setCoeff (start + c) scale
  | none => constant n 0

structure Placement where
  domain : PointSet
  /-- The dimension that moves `θ`. -/
  carrier : Option Nat
  /-- How far a step along the carrier moves `θ`. -/
  scale : Int
  delay : Int
  order : Nat
deriving DecidableEq, Repr

namespace Placement

def dims (p : Placement) : Nat := p.domain.dims

/-- The dimensions other than the carrier. -/
def innerOf (dims : Nat) (carrier : Option Nat) : List Nat :=
  (List.range dims).filter fun d => carrier != some d

def inner (p : Placement) : List Nat := innerOf p.dims p.carrier

/-- The number of rows that the times of some placements have. -/
def widthOf (ps : List Placement) : Nat := ps.foldl (fun w p => max w (2 + p.inner.length)) 2

variable [Arithmetic]

/-- The leading row, as a form over the dimensions. -/
def leading (p : Placement) : Affine :=
  match p.carrier with
  | some c => ((Affine.var p.dims c).scale p.scale).plus p.delay
  | none => .constant p.dims p.delay

/-- The rows of the time, of which there are `width`. -/
def rows (p : Placement) (width : Nat) : List Affine :=
  let inner := p.inner.map (Affine.var p.dims)
  let zeros := List.replicate (width - 2 - inner.length) (Affine.constant p.dims 0)
  p.leading :: .constant p.dims p.order :: (inner ++ zeros).take (width - 2)

/-- The leading row of the time of a point. -/
def theta (p : Placement) (point : List Int) : Int :=
  match p.carrier with
  | some c => fit (p.scale * point.getD c 0 + p.delay)
  | none => p.delay

def theta? (p : Placement) (point : List Int) : Except Fault Int := do
  match p.carrier with
  | some c =>
    let _ ← elementAt point c
    return p.theta point
  | none => return p.delay

end Placement

end StreamLoom
