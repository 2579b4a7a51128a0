import StreamLoom.Report
import StreamLoom.Storage.Instance

/-!
# Storage requirements

A value must not be overwritten while it is still to be read. For every read of an element `y` at a
point `x`, consider the elements `z` written after `y` and before `x`. When such an element differs
from `y` only along the carrier, the two must not share a slot, so that the buffer needs more slots
than their distance along the carrier.
-/

namespace StreamLoom

/-- What a dependency requires of the buffer of its array. -/
structure Requirement where
  dependency : Dependency
  /-- The greatest number of steps between a write and a read in the same phase. -/
  distance : Int
  /-- The number of slots. -/
  slices : Int

namespace Requirement

variable [Arithmetic]

/-- The reason for which the buffer of a dependency cannot be sized. -/
def unsized (m : Model) (d : Dependency) (reason : String) : Failure :=
  .unsized (m.nameOf d.producer) (m.nameOf d.consumer) ((m.arrays[d.array]?).elim "" (·.name)) reason

/-- A form over `k` variables, read over those from `start` on out of `n`. -/
def shifted (n start : Nat) (a : Affine) : Affine := a.remap n (List.range' start a.vars)

/-- The greatest number of steps by which reads lag behind writes. -/
def stepsBetween (m : Model) (d : Dependency) (pairs : Relation) (x y : Instance) :
    Except Failure Int :=
  let n := pairs.dims
  match pairs.pairs.maximum ((shifted n 0 x.theta).sub (shifted n pairs.inputs y.theta)) with
  | none => .ok 0
  | some (.int steps) => .ok steps
  | some _ => .error (unsized m d "unbounded dependence distance")

/-- The parts of a window where `z` executes before `x`, given their leading rows. Points of one
statement at the same step execute in the order of their inner dimensions, those of `z` being found
from `start` on. -/
def tiesBefore (n start : Nat) : List Nat → PointSet → List PointSet
  | [], _ => []
  | d :: rest, tie =>
    let zd := Affine.var n (start + d)
    let xd := Affine.var n d
    tie.constrain [.lt zd xd] :: tiesBefore n start rest (tie.constrain [.equal zd xd])

def before (window : PointSet) (z x : Instance) (tz tx : Affine) (start : Nat) : List PointSet :=
  if z.statement ≠ x.statement then
    [window.constrain [if z.order < x.order then .le tz tx else .lt tz tx]]
  else
    window.constrain [.lt tz tx] ::
      tiesBefore window.dims start z.inner (window.constrain [.equal tz tx])

/-- The elements `z` that are written no earlier than `y` and that agree with it but for the carrier.
The variables are those of `x`, of `y` and of `z`. -/
def window (pairs : Relation) (y z : Instance) (carrier : Nat) : PointSet :=
  let start := pairs.dims
  let n := start + z.domain.dims
  let ty := shifted n pairs.inputs y.theta
  let tz := shifted n start z.theta
  let others := (List.range z.domain.dims).filter (· ≠ carrier)
  let agreeing := others.foldl (fun (w : PointSet) v =>
    w.constrain [.equal (.var n (pairs.inputs + v)) (.var n (start + v))])
    (pairs.pairs.product z.domain)
  if y.isSteady ≠ z.isSteady then agreeing
  else agreeing.constrain
    [if z.statement ≠ y.statement ∧ z.order < y.order then .lt ty tz else .le ty tz]

/-- The number of slots that the distances of a part of the window require. -/
def slotsOf (m : Model) (d : Dependency) (difference : Affine) (slots : Int) (piece : PointSet) :
    Except Failure Int :=
  match piece.bound difference with
  | none => .ok slots
  | some interval =>
    match interval.ends? with
    | none => .error (unsized m d "unbounded buffer")
    | some (lo, hi) => .ok (max slots (max (fit (hi + 1)) (fit (1 - lo))))

/-- The number of slots required by the writes of one instance. What the prologue writes cannot
follow what the steady state reads, and what the steady state writes cannot precede what the prologue
reads. -/
def span (m : Model) (d : Dependency) (pairs : Relation) (x y z : Instance) (carrier : Nat) :
    Except Failure Int :=
  if (!x.isSteady && z.isSteady) || (y.isSteady && !z.isSteady) then .ok 0
  else
    let start := pairs.dims
    let n := start + z.domain.dims
    let w := window pairs y z carrier
    let pieces := if x.isSteady = z.isSteady
      then before w z x (shifted n start z.theta) (shifted n 0 x.theta) start
      else [w]
    let difference := (Affine.var n (start + carrier)).sub (.var n (pairs.inputs + carrier))
    pieces.foldlM (slotsOf m d difference) 0

/-- Adds what is required by the reads of one instance from another. -/
def join (m : Model) (d : Dependency) (writers : List Instance) (carrier : Nat) (x y : Instance)
    (r : Requirement) : Except Failure Requirement := do
  let pairs := (d.relation.intersectDomain x.domain).intersectRange y.domain
  if pairs.isEmpty then return r
  if !x.isSteady && y.isSteady then throw (unsized m d "value read before the steady state")
  let steps ← if x.isSteady = y.isSteady then stepsBetween m d pairs x y else pure r.distance
  let slices ← writers.foldlM (fun slices z => do
    return max slices (← span m d pairs x y z carrier)) r.slices
  return { r with distance := max r.distance steps, slices }

/-- What a dependency requires of the buffer of its array, given the dimension that carries it. -/
def ofDependency (m : Model) (s : Schedule) (carrier : Option Nat) (d : Dependency) :
    Except Failure Requirement :=
  match carrier with
  | none => .ok ⟨d, 0, 1⟩
  | some carrier =>
    let writers := (m.writers d.array).flatMap (Instance.ofStatement m s)
    let pairs := (Instance.ofStatement m s d.consumer).flatMap fun x =>
      (Instance.ofStatement m s d.producer).map fun y => (x, y)
    pairs.foldlM (fun r (x, y) => join m d writers carrier x y r) ⟨d, 0, 1⟩

/-- Whether a period can read values that were written before it. The variables are those of the
dependency and the period of the consumer. -/
def crossesPeriod (s : Schedule) (d : Dependency) : Bool :=
  if !s.isSteady d.consumer then false
  else
    let pairs := d.relation.pairs.product (.full "k" 1)
    let n := pairs.dims
    let k := Affine.var n (n - 1)
    let flow := Affine.var n (s.flow d.consumer)
    let start := (k.scale (s.period d.consumer)).plus (s.offset d.consumer)
    let reads := pairs.constrain [.atLeast k, .le start flow,
      .lt flow (start.plus (s.period d.consumer))]
    if reads.isEmpty then false
    else if !s.isSteady d.producer then true
    else
      let written := Affine.var n (d.relation.inputs + s.flow d.producer)
      let start := (k.scale (s.period d.producer)).plus (s.offset d.producer)
      !(reads.constrain [.lt written start]).isEmpty

end Requirement

end StreamLoom
